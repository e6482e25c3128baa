import Meguro.Input.Line

/-!
# Lines of binary files

`strlen` sees a chunk only up to its first NUL. A chunk that begins with NUL has
length 0, and the loop reads the byte in front of the buffer; a newline behind a
NUL is not seen, and the loop goes on into the next line. A call keeps lines
apart exactly when no chunk it reads begins with NUL and a newline it does not
see is followed by an empty line, or by no further newline.
-/

namespace Meguro

/-! ## The lines the bytes come from -/

/-- A chunk, or the rest of a file, holds a newline, seen by `strlen` or not. -/
def HasNewline (cells : List Cell) : Prop := ∃ cell ∈ cells, cell.byte = newline

instance (cells : List Cell) : Decidable (HasNewline cells) :=
  inferInstanceAs (Decidable (∃ cell ∈ cells, cell.byte = newline))

/-- Where the cells of a file split, its bytes do. -/
theorem fileCells_eq_append {line : Nat} {content : List UInt8} {before after : List Cell}
    (h : fileCells line content = before ++ after) : ∃ xs ys, content = xs ++ ys ∧
      before = fileCells line xs ∧ after = fileCells (line + xs.count newline) ys := by
  induction before generalizing line content with
  | nil => exact ⟨[], content, rfl, rfl, h.symm⟩
  | cons cell before ih =>
    cases content with
    | nil => cases h
    | cons b bs =>
      rw [fileCells, List.cons_append, List.cons.injEq] at h
      obtain ⟨hcell, hrest⟩ := h
      obtain ⟨xs, ys, rfl, rfl, rfl⟩ := ih hrest
      refine ⟨b :: xs, ys, rfl, by rw [← hcell, fileCells], ?_⟩
      rw [List.count_cons]
      by_cases hb : b = newline
      · simp [hb, Nat.add_assoc, Nat.add_comm 1]
      · simp [hb]

theorem hasNewline_fileCells_iff {line : Nat} {content : List UInt8} :
    HasNewline (fileCells line content) ↔ 0 < content.count newline := by
  induction content generalizing line with
  | nil => simp [fileCells, HasNewline]
  | cons b bs ih =>
    rw [fileCells, List.count_cons]
    by_cases hb : b = newline
    · exact iff_of_true ⟨_, List.mem_cons_self .., hb⟩ (by simp [hb])
    · have hbeq : (b == newline) = false := beq_eq_false_iff_ne.mpr hb
      rw [hbeq, if_neg hb, if_neg Bool.false_ne_true, Nat.add_zero, ← ih]
      constructor
      · rintro ⟨cell, hcell, hbyte⟩
        rcases List.mem_cons.mp hcell with rfl | hcell
        · exact absurd hbyte hb
        · exact ⟨cell, hcell, hbyte⟩
      · rintro ⟨cell, hcell, hbyte⟩
        exact ⟨cell, List.mem_cons_of_mem _ hcell, hbyte⟩

/-- Bytes with a newline at most at their end are of one line. -/
theorem line_of_mem_fileCells {line : Nat} {content : List UInt8}
    (h : ∀ cell ∈ (fileCells line content).dropLast, cell.byte ≠ newline) :
    (∀ cell ∈ fileCells line content, cell.line = some line) ∧ content.count newline ≤ 1 := by
  induction content with
  | nil => simp [fileCells]
  | cons b bs ih =>
    cases bs with
    | nil =>
      refine ⟨by simp [fileCells], ?_⟩
      exact (List.count_le_length ..).trans_eq (List.length_singleton ..)
    | cons c bs =>
      rw [fileCells, fileCells, List.dropLast_cons_cons, List.forall_mem_cons] at h
      obtain ⟨hb, hrest⟩ := h
      rw [if_neg hb, ← fileCells] at hrest
      obtain ⟨hlines, hcount⟩ := ih hrest
      refine ⟨?_, ?_⟩
      · rw [fileCells, if_neg hb]
        exact List.forall_mem_cons.mpr ⟨rfl, hlines⟩
      · rw [List.count_cons_of_ne hb]
        exact hcount

/-- The lines of a file never go back. -/
theorem le_line_of_mem_fileCells {line : Nat} {content : List UInt8} :
    ∀ cell ∈ fileCells line content, ∃ l, cell.line = some l ∧ line ≤ l := by
  induction content generalizing line with
  | nil => simp [fileCells]
  | cons b bs ih =>
    rw [fileCells, List.forall_mem_cons]
    refine ⟨⟨line, rfl, Nat.le_refl _⟩, fun cell hcell => ?_⟩
    obtain ⟨l, hl, hle⟩ := ih cell hcell
    refine ⟨l, hl, ?_⟩
    split at hle <;> omega

/-- The chunks of the rest of a file, from this line on; the file has this many
newline-terminated lines in all. -/
structure FromLine (line total : Nat) (chunks : List (List Cell)) : Prop where
  cells : ∃ content, chunks.flatten = fileCells line content ∧
    total = line + content.count newline
  newline_last : ∀ chunk ∈ chunks, ∀ cell ∈ chunk.dropLast, cell.byte ≠ newline

namespace FromLine

variable {line total : Nat} {chunk : List Cell} {chunks before : List (List Cell)}

/-- A chunk lies in one line, and the next one in the same or the following line. -/
theorem cons (h : FromLine line total (chunk :: chunks)) :
    (∀ cell ∈ chunk, cell.line = some line) ∧
      FromLine (if HasNewline chunk then line + 1 else line) total chunks := by
  obtain ⟨⟨content, hflat, rfl⟩, hlast⟩ := h
  obtain ⟨hchunk, hchunks⟩ := List.forall_mem_cons.mp hlast
  rw [List.flatten_cons] at hflat
  obtain ⟨xs, ys, rfl, rfl, hrest⟩ := fileCells_eq_append hflat.symm
  obtain ⟨hlines, hcount⟩ := line_of_mem_fileCells hchunk
  refine ⟨hlines, ⟨ys, ?_, ?_⟩, hchunks⟩
  · rw [hrest]
    congr 1
    split
    · rename_i hnew
      have hpos := hasNewline_fileCells_iff.mp hnew
      omega
    · rename_i hnew
      have hpos := mt hasNewline_fileCells_iff.mpr hnew
      omega
  · rw [List.count_append]
    split
    · rename_i hnew
      have hpos := hasNewline_fileCells_iff.mp hnew
      omega
    · rename_i hnew
      have hpos := mt hasNewline_fileCells_iff.mpr hnew
      omega

/-- The rest of the file holds a newline exactly when it holds a terminated line. -/
theorem lt_total_iff (h : FromLine line total chunks) :
    line < total ↔ HasNewline chunks.flatten := by
  obtain ⟨content, hflat, rfl⟩ := h.cells
  rw [hflat, hasNewline_fileCells_iff]
  omega

theorem le_line (h : FromLine line total chunks) {cell : Cell} (hcell : cell ∈ chunks.flatten) :
    ∃ l, cell.line = some l ∧ line ≤ l := by
  obtain ⟨content, hflat, -⟩ := h.cells
  rw [hflat] at hcell
  exact le_line_of_mem_fileCells cell hcell

/-- Chunks without newline are of one line with what follows. -/
theorem append (h : FromLine line total (before ++ chunks)) (hopen : ∀ b ∈ before, ¬ HasNewline b) :
    (∀ b ∈ before, ∀ cell ∈ b, cell.line = some line) ∧ FromLine line total chunks := by
  induction before with
  | nil => exact ⟨by simp, h⟩
  | cons b before ih =>
    obtain ⟨hb, hbefore⟩ := List.forall_mem_cons.mp hopen
    obtain ⟨hlines, hrest⟩ := h.cons
    rw [if_neg hb] at hrest
    obtain ⟨hmore, hchunks⟩ := ih hrest hbefore
    exact ⟨List.forall_mem_cons.mpr ⟨hlines, hmore⟩, hchunks⟩

end FromLine

/-- The calls of an iteration start at the beginning of a chunk. -/
theorem Reading.fromLine {size : Nat} {content : List UInt8} {done chunks : List (List Cell)}
    (h : Reading size (fileCells 0 content) (done ++ chunks)) :
    ∃ line, FromLine line (content.count newline) chunks := by
  have hflat := h.flatten
  rw [List.flatten_append] at hflat
  obtain ⟨xs, ys, rfl, -, hrest⟩ := fileCells_eq_append hflat.symm
  refine ⟨0 + xs.count newline, ⟨ys, hrest, by rw [List.count_append]; omega⟩, ?_⟩
  exact fun chunk hchunk => (h.isChunk chunk (List.mem_append_right _ hchunk)).newline_last

/-- The first chunk with a newline. -/
theorem exists_first_hasNewline {chunks : List (List Cell)} (h : ∃ c ∈ chunks, HasNewline c) :
    ∃ before c after, chunks = before ++ c :: after ∧ (∀ b ∈ before, ¬ HasNewline b) ∧
      HasNewline c := by
  induction chunks with
  | nil => simp at h
  | cons chunk chunks ih =>
    by_cases hchunk : HasNewline chunk
    · exact ⟨[], chunk, chunks, rfl, by simp, hchunk⟩
    · obtain ⟨c, hc, hnew⟩ := h
      rcases List.mem_cons.mp hc with rfl | hc
      · exact absurd hnew hchunk
      · obtain ⟨before, c, after, rfl, hbefore, hc⟩ := ih ⟨c, hc, hnew⟩
        exact ⟨chunk :: before, c, after, rfl, List.forall_mem_cons.mpr ⟨hchunk, hbefore⟩, hc⟩

/-! ## The property and its condition -/

/-- No value holds bytes of two newline-terminated lines of the file; the lines
with numbers below the number of newlines are terminated. -/
def LinePair.OfOneLine (pair : LinePair) (total : Nat) : Prop :=
  ∀ c ∈ pair.value, ∀ d ∈ pair.value, ∀ k l, c.line = some k → d.line = some l →
    k < total → l < total → k = l

/-- A call on the chunks that are left never reads in front of the buffer, and
what it returns is of one line. -/
def FramesLine (next : List (List Cell) → NextResult) (content : List UInt8)
    (chunks : List (List Cell)) : Prop :=
  next chunks ≠ .negativeIndex ∧
    ∀ pair rest, next chunks = .pair pair rest → pair.OfOneLine (content.count newline)

/-- The texts of the first line a call sees fit an `int`. -/
def FirstLineFits (chunks : List (List Cell)) : Prop :=
  ∀ before c after, chunks = before ++ c :: after → (∀ b ∈ before, ¬ EndsLine b) →
    (textsOf (before ++ [c])).length ≤ intMax

/-- Up to the first newline that is seen, every newline that is not is followed
by an empty line or by no further newline. -/
def HiddenFollowed (chunks : List (List Cell)) : Prop :=
  ∀ before c d after, chunks = before ++ c :: d :: after → (∀ b ∈ before ++ [c], ¬ EndsLine b) →
    HasNewline c → d.map Cell.byte = [newline] ∨ ¬ HasNewline (d :: after).flatten

/-- The condition on the chunks that are left. -/
structure KeepsFraming (chunks : List (List Cell)) : Prop where
  /-- Up to the first newline that is seen, and as long as the texts fit, no
  chunk begins with NUL. -/
  nonempty : ∀ before c after, chunks = before ++ c :: after → (∀ b ∈ before, ¬ EndsLine b) →
    (textsOf before).length ≤ intMax → textOf c ≠ []
  /-- If the texts all fit, no hidden newline leads into a line to come. -/
  hidden : FirstLineFits chunks → HiddenFollowed chunks

section Call

variable {before tail : List (List Cell)}

/-- What a call that returns a pair has gathered behind the chunks it passed. -/
def lastText : List (List Cell) → List Cell
  | [] => []
  | chunk :: _ => (textOf chunk).dropLast ++ [.terminator]

/-- Where the call stops, the text ends in a newline, or no chunk is left. -/
def StopsAt (tail : List (List Cell)) : Prop := ∀ chunk ∈ tail.head?, EndsLine chunk

theorem textOf_ne_nil_of_endsLine {chunk : List Cell} (h : EndsLine chunk) : textOf chunk ≠ [] := by
  intro hnil
  rw [EndsLine, hnil] at h
  cases h

/-- A chunk that is read with the loop still running is one the call passed, or
the one it stops at. -/
theorem prefix_of_split (hstop : StopsAt tail) {b' after' : List (List Cell)} {c : List Cell}
    (hsplit : before ++ tail = b' ++ c :: after') (hopen : ∀ b ∈ b', ¬ EndsLine b) :
    (∃ e, before = b' ++ c :: e) ∨ (b' = before ∧ tail = c :: after') := by
  rcases List.append_eq_append_iff.mp hsplit with ⟨e, rfl, htail⟩ | ⟨e, rfl, hrest⟩
  · cases e with
    | nil => exact Or.inr ⟨List.append_nil _, htail⟩
    | cons d e =>
      rw [htail] at hstop
      exact absurd (hstop d rfl) (hopen d (by simp))
  · cases e with
    | nil => exact Or.inr ⟨(List.append_nil _).symm, hrest.symm⟩
    | cons d e =>
      obtain ⟨rfl, -⟩ := List.cons.inj hrest
      exact Or.inl ⟨e, rfl⟩

theorem firstLineFits_of_stopsAt (hpass : Passes before) (hstop : StopsAt tail)
    (hfits : ∀ chunk ∈ tail.head?, (textsOf (before ++ [chunk])).length ≤ intMax) :
    FirstLineFits (before ++ tail) := by
  intro b' c after' hsplit hopen
  rcases prefix_of_split hstop hsplit hopen with ⟨e, rfl⟩ | ⟨rfl, rfl⟩
  · have hlen := hpass.fits
    rw [List.append_cons, textsOf_append, List.length_append] at hlen
    omega
  · exact hfits c rfl

/-- A call that goes past no chunk beginning with NUL reads none. -/
theorem nonempty_of_passes (hpass : Passes before)
    (hblock : ∀ chunk ∈ tail.head?, textOf chunk ≠ [] ∧
      (EndsLine chunk ∨ intMax < (textsOf (before ++ [chunk])).length))
    {b' after' : List (List Cell)} {c : List Cell} (hsplit : before ++ tail = b' ++ c :: after')
    (hopen : ∀ b ∈ b', ¬ EndsLine b) (hfits : (textsOf b').length ≤ intMax) : textOf c ≠ [] := by
  rcases List.append_eq_append_iff.mp hsplit with ⟨e, rfl, htail⟩ | ⟨e, rfl, hrest⟩
  · cases e with
    | nil =>
      rw [htail] at hblock
      exact (hblock c rfl).1
    | cons d e =>
      rw [htail] at hblock
      rcases (hblock d rfl).2 with hends | hover
      · exact absurd hends (hopen d (by simp))
      · rw [List.append_cons, textsOf_append, List.length_append] at hfits
        omega
  · cases e with
    | nil =>
      rw [List.nil_append] at hrest
      rw [← hrest] at hblock
      exact (hblock c rfl).1
    | cons d e =>
      obtain ⟨rfl, -⟩ := List.cons.inj hrest
      exact hpass.ne_nil c (by simp)

/-- On a call that returns a pair only the hidden newlines matter. -/
theorem keepsFraming_iff_of_stopsAt (hpass : Passes before) (hstop : StopsAt tail)
    (hfits : ∀ chunk ∈ tail.head?, (textsOf (before ++ [chunk])).length ≤ intMax) :
    KeepsFraming (before ++ tail) ↔ HiddenFollowed (before ++ tail) := by
  refine ⟨fun h => h.hidden (firstLineFits_of_stopsAt hpass hstop hfits), fun h => ⟨?_, fun _ => h⟩⟩
  intro b' c after' hsplit hopen hlen
  refine nonempty_of_passes hpass (fun chunk hchunk => ?_) hsplit hopen hlen
  exact ⟨textOf_ne_nil_of_endsLine (hstop chunk hchunk), Or.inl (hstop chunk hchunk)⟩

theorem mem_textsOf {cell : Cell} : cell ∈ textsOf before ↔ ∃ b ∈ before, cell ∈ textOf b :=
  List.mem_flatMap

theorem mem_of_mem_textOf {cell : Cell} {chunk : List Cell} (h : cell ∈ textOf chunk) :
    cell ∈ chunk :=
  (List.takeWhile_sublist _).subset h

/-- The cells behind the passed chunks are of the chunk the call stops at. -/
theorem mem_of_mem_lastText {cell : Cell} {k : Nat} (h : cell ∈ lastText tail)
    (hk : cell.line = some k) : ∃ chunk after, tail = chunk :: after ∧
      cell ∈ (textOf chunk).dropLast := by
  cases tail with
  | nil => cases h
  | cons chunk after =>
    rcases List.mem_append.mp h with h | h
    · exact ⟨chunk, after, rfl, h⟩
    · rw [List.mem_singleton.mp h] at hk
      cases hk

section OneLine

variable {line total : Nat}

/-- When all the call reads is of one line, so is the value. -/
theorem ofOneLine_of_line (hbefore : ∀ b ∈ before, ∀ cell ∈ b, cell.line = some line)
    (htail : ∀ chunk ∈ tail.head?, ∀ cell ∈ chunk, cell.line = some line) :
    LinePair.OfOneLine ⟨.ofLiteral "", textsOf before ++ lastText tail⟩ total := by
  have hvalue : ∀ cell ∈ textsOf before ++ lastText tail, ∀ k, cell.line = some k → k = line := by
    intro cell hcell k hk
    rcases List.mem_append.mp hcell with hcell | hcell
    · obtain ⟨b, hb, hcell⟩ := mem_textsOf.mp hcell
      rw [hbefore b hb cell (mem_of_mem_textOf hcell)] at hk
      exact (Option.some.inj hk).symm
    · obtain ⟨chunk, after, rfl, hlast⟩ := mem_of_mem_lastText hcell hk
      have hmem := mem_of_mem_textOf (List.mem_of_mem_dropLast hlast)
      rw [htail chunk rfl cell hmem] at hk
      exact (Option.some.inj hk).symm
  intro c hc d hd k l hk hl _ _
  rw [hvalue c hc k hk, hvalue d hd l hl]

/-- Of a chunk that ends a line, only a lone newline adds nothing to the value. -/
theorem exists_mem_dropLast_textOf {chunk : List Cell} (hends : EndsLine chunk)
    (hlast : ∀ cell ∈ chunk.dropLast, cell.byte ≠ newline)
    (hne : chunk.map Cell.byte ≠ [newline]) : ∃ cell, cell ∈ (textOf chunk).dropLast := by
  by_contra hnone
  have hnil : (textOf chunk).dropLast = [] :=
    List.eq_nil_iff_forall_not_mem.mpr (not_exists.mp hnone)
  obtain ⟨last, htext⟩ : ∃ last, textOf chunk = [last] := by
    have hsplit := List.dropLast_append_getLast (textOf_ne_nil_of_endsLine hends)
    exact ⟨_, by rw [hnil] at hsplit; exact hsplit.symm⟩
  have hbyte : last.byte = newline := by
    rw [EndsLine, htext] at hends
    exact Option.some.inj hends
  have hchunk : chunk = last :: chunk.dropWhile (·.byte ≠ 0) := by
    have hsplit : textOf chunk ++ chunk.dropWhile (·.byte ≠ 0) = chunk :=
      List.takeWhile_append_dropWhile
    rw [htext] at hsplit
    exact hsplit.symm
  cases hmore : chunk.dropWhile (·.byte ≠ 0) with
  | nil =>
    rw [hmore] at hchunk
    exact hne (by rw [hchunk, List.map_singleton, hbyte])
  | cons next more =>
    rw [hmore] at hchunk
    exact hlast last (by rw [hchunk]; simp) hbyte

theorem endsLine_of_lone_newline {chunk : List Cell} (h : chunk.map Cell.byte = [newline]) :
    EndsLine chunk ∧ (textOf chunk).dropLast = [] := by
  obtain ⟨cell, rfl, hbyte⟩ := List.map_eq_singleton_iff.mp h
  have hzero : cell.byte ≠ 0 := by rw [hbyte]; decide
  have htext : textOf [cell] = [cell] := by simp [textOf, hzero]
  rw [EndsLine, htext]
  exact ⟨congrArg some hbyte, rfl⟩

section Hidden

variable {c₁ d₁ : List Cell} {b₁ b₂ after : List (List Cell)}

/-- With a hidden newline, a cell of the value is of its line, or of a later one and behind it. -/
theorem line_of_mem_value (hb₁ : ∀ b ∈ b₁, ∀ cell ∈ b, cell.line = some line)
    (hc₁ : ∀ cell ∈ c₁, cell.line = some line)
    (hafter : FromLine (line + 1) total (b₂ ++ tail)) {cell : Cell}
    (hcell : cell ∈ textsOf (b₁ ++ c₁ :: b₂) ++ lastText tail) {k : Nat}
    (hk : cell.line = some k) :
    k = line ∨ line + 1 ≤ k ∧ ((∃ b ∈ b₂, cell ∈ textOf b) ∨ cell ∈ lastText tail) := by
  have hlater : cell ∈ (b₂ ++ tail).flatten → line + 1 ≤ k := by
    intro hmem
    obtain ⟨l, hl, hle⟩ := hafter.le_line hmem
    rw [hk] at hl
    exact Option.some.inj hl ▸ hle
  rcases List.mem_append.mp hcell with hcell | hcell
  · obtain ⟨b, hb, hcell⟩ := mem_textsOf.mp hcell
    have hmem := mem_of_mem_textOf hcell
    rcases List.mem_append.mp hb with hb | hb
    · rw [hb₁ b hb cell hmem] at hk
      exact Or.inl (Option.some.inj hk).symm
    rcases List.mem_cons.mp hb with rfl | hb
    · rw [hc₁ cell hmem] at hk
      exact Or.inl (Option.some.inj hk).symm
    · exact Or.inr ⟨hlater (List.mem_flatten.mpr ⟨b, List.mem_append_left _ hb, hmem⟩),
        Or.inl ⟨b, hb, hcell⟩⟩
  · obtain ⟨chunk, rest, rfl, hlast⟩ := mem_of_mem_lastText hcell hk
    have hmem := mem_of_mem_textOf (List.mem_of_mem_dropLast hlast)
    exact Or.inr ⟨hlater (List.mem_flatten.mpr ⟨chunk, by simp, hmem⟩), Or.inr hcell⟩

/-- A chunk behind the hidden newline that is not an empty line reaches the value. -/
theorem exists_mem_value (hpass : ∀ b ∈ b₂, textOf b ≠ []) (hstop : StopsAt tail)
    (hrest : b₂ ++ tail = d₁ :: after) (hlast : ∀ cell ∈ d₁.dropLast, cell.byte ≠ newline)
    (hne : d₁.map Cell.byte ≠ [newline]) :
    ∃ cell ∈ d₁, cell ∈ textsOf (b₁ ++ c₁ :: b₂) ++ lastText tail := by
  cases b₂ with
  | nil =>
    obtain rfl : tail = d₁ :: after := hrest
    obtain ⟨cell, hcell⟩ := exists_mem_dropLast_textOf (hstop d₁ rfl) hlast hne
    exact ⟨cell, mem_of_mem_textOf (List.mem_of_mem_dropLast hcell),
      List.mem_append_right _ (List.mem_append_left _ hcell)⟩
  | cons d b₂ =>
    obtain ⟨rfl, -⟩ := List.cons.inj hrest
    obtain ⟨cell, hcell⟩ := List.exists_mem_of_ne_nil _ (hpass d (by simp))
    exact ⟨cell, mem_of_mem_textOf hcell,
      List.mem_append_left _ (mem_textsOf.mpr ⟨d, by simp, hcell⟩)⟩

/-- An empty line behind the hidden newline ends the call and leaves only the terminator. -/
theorem notMem_value_of_lone (hpass : ∀ b ∈ b₂, ¬ EndsLine b) (hrest : b₂ ++ tail = d₁ :: after)
    (hlone : d₁.map Cell.byte = [newline]) {cell : Cell} {k : Nat} (hk : cell.line = some k) :
    ¬ ((∃ b ∈ b₂, cell ∈ textOf b) ∨ cell ∈ lastText tail) := by
  obtain ⟨hends, hdrop⟩ := endsLine_of_lone_newline hlone
  cases b₂ with
  | nil =>
    obtain rfl : tail = d₁ :: after := hrest
    rintro (⟨b, hb, -⟩ | hin)
    · cases hb
    · obtain ⟨chunk, rest, he, hmem⟩ := mem_of_mem_lastText hin hk
      obtain ⟨rfl, -⟩ := List.cons.inj he
      rw [hdrop] at hmem
      cases hmem
  | cons d b₂ =>
    obtain ⟨rfl, -⟩ := List.cons.inj hrest
    exact absurd hends (hpass d (by simp))

/-- After the first hidden newline the value stays of one line exactly when an
empty line follows, or no further newline. -/
theorem ofOneLine_iff_of_hidden (hfile : FromLine line total (b₁ ++ c₁ :: d₁ :: after))
    (hpass : Passes before) (hstop : StopsAt tail) (hopen : ∀ b ∈ b₁, ¬ HasNewline b)
    (hnew : HasNewline c₁) (hbefore : before = b₁ ++ c₁ :: b₂)
    (hrest : b₂ ++ tail = d₁ :: after) :
    LinePair.OfOneLine ⟨.ofLiteral "", textsOf before ++ lastText tail⟩ total ↔
      d₁.map Cell.byte = [newline] ∨ ¬ HasNewline (d₁ :: after).flatten := by
  obtain ⟨hb₁, hfile⟩ := hfile.append hopen
  obtain ⟨hc₁, hafter⟩ := hfile.cons
  rw [if_pos hnew] at hafter
  subst hbefore
  constructor
  · intro hone
    by_contra hnot
    obtain ⟨hlone, hmore⟩ := not_or.mp hnot
    rw [not_not] at hmore
    have hlt : line + 1 < total := hafter.lt_total_iff.mpr hmore
    obtain ⟨x, hx⟩ := List.exists_mem_of_ne_nil _ (hpass.ne_nil c₁ (by simp))
    have hxvalue : x ∈ textsOf (b₁ ++ c₁ :: b₂) ++ lastText tail :=
      List.mem_append_left _ (mem_textsOf.mpr ⟨c₁, by simp, hx⟩)
    obtain ⟨y, hy, hyvalue⟩ : ∃ y ∈ d₁, y ∈ textsOf (b₁ ++ c₁ :: b₂) ++ lastText tail :=
      exists_mem_value (fun b hb => hpass.ne_nil b (by simp [hb])) hstop hrest
        (hafter.newline_last d₁ (by simp)) hlone
    have hxline := hc₁ x (mem_of_mem_textOf hx)
    have hyline := hafter.cons.1 y hy
    have hsame := hone x hxvalue y hyvalue _ _ hxline hyline (by omega) hlt
    omega
  · intro hcond c hc d hd k l hk hl hkt hlt
    have hfirst : ∀ cell ∈ textsOf (b₁ ++ c₁ :: b₂) ++ lastText tail, ∀ k,
        cell.line = some k → k < total → k = line := by
      intro cell hcell k hk hkt
      rcases line_of_mem_value hb₁ hc₁ (hrest ▸ hafter) hcell hk with rfl | ⟨hle, hin⟩
      · rfl
      rcases hcond with hlone | hnone
      · exact absurd hin
          (notMem_value_of_lone (fun b hb => hpass.open_end b (by simp [hb])) hrest hlone hk)
      · have hle' := mt hafter.lt_total_iff.mp hnone
        omega
    rw [hfirst c hc k hk hkt, hfirst d hd l hl hlt]

end Hidden

end OneLine

/-- Only the first hidden newline matters. -/
theorem hiddenFollowed_iff {c₁ d₁ : List Cell} {b₁ after : List (List Cell)}
    (hopen : ∀ b ∈ b₁, ¬ HasNewline b) (hnew : HasNewline c₁)
    (hend : ∀ b ∈ b₁ ++ [c₁], ¬ EndsLine b) : HiddenFollowed (b₁ ++ c₁ :: d₁ :: after) ↔
      d₁.map Cell.byte = [newline] ∨ ¬ HasNewline (d₁ :: after).flatten := by
  constructor
  · exact fun h => h b₁ c₁ d₁ after rfl hend hnew
  · intro h b' c d after' hsplit hend' hnew'
    rcases List.append_eq_append_iff.mp hsplit with ⟨e, rfl, he⟩ | ⟨e, rfl, he⟩
    · cases e with
      | nil =>
        obtain ⟨-, rfl, rfl⟩ := he
        exact h
      | cons x e =>
        obtain ⟨rfl, hrest⟩ := List.cons.inj he
        have hrest : d₁ :: after = e ++ c :: d :: after' := hrest
        have hc : c ∈ d₁ :: after := by rw [hrest]; simp
        rcases h with hlone | hnone
        · -- the lone newline ends the call, so it is not passed
          have hends := (endsLine_of_lone_newline hlone).1
          have hmem : d₁ ∈ e ++ [c] := by
            cases e with
            | nil => simp [(List.cons.inj hrest).1]
            | cons y e => simp [(List.cons.inj hrest).1]
          refine absurd hends (hend' d₁ ?_)
          rw [List.append_assoc, List.cons_append]
          exact List.mem_append_right _ (List.mem_cons_of_mem _ hmem)
        · obtain ⟨cell, hcell, hbyte⟩ := hnew'
          exact absurd ⟨cell, List.mem_flatten.mpr ⟨c, hc, hcell⟩, hbyte⟩ hnone
    · cases e with
      | nil =>
        obtain ⟨-, rfl, rfl⟩ := he
        exact h
      | cons x e =>
        obtain ⟨rfl, -⟩ := List.cons.inj he
        exact absurd hnew' (hopen c (by simp))

/-- What a call returns is of one line exactly when every hidden newline it
passes is followed as required. -/
theorem ofOneLine_iff_hiddenFollowed {line total : Nat}
    (hfile : FromLine line total (before ++ tail)) (hpass : Passes before) (hstop : StopsAt tail) :
    LinePair.OfOneLine ⟨.ofLiteral "", textsOf before ++ lastText tail⟩ total ↔
      HiddenFollowed (before ++ tail) := by
  by_cases hhidden : ∃ c ∈ before, HasNewline c
  · obtain ⟨b₁, c₁, b₂, hbefore, hopen, hnew⟩ := exists_first_hasNewline hhidden
    have hsplit : before ++ tail = b₁ ++ c₁ :: (b₂ ++ tail) := by
      rw [hbefore, List.append_assoc, List.cons_append]
    have hend : ∀ b ∈ b₁ ++ [c₁], ¬ EndsLine b := by
      intro b hb
      apply hpass.open_end
      rw [hbefore, List.append_cons]
      exact List.mem_append_left _ hb
    cases hrest : b₂ ++ tail with
    | nil =>
      obtain ⟨rfl, rfl⟩ := List.append_eq_nil_iff.mp hrest
      rw [hsplit, hrest] at hfile
      obtain ⟨hb₁, hc₁⟩ := hfile.append hopen
      refine iff_of_true ?_ ?_
      · have hlines : ∀ b ∈ before, ∀ cell ∈ b, cell.line = some line := by
          rw [hbefore]
          exact List.forall_mem_append.mpr ⟨hb₁, List.forall_mem_singleton.mpr hc₁.cons.1⟩
        exact ofOneLine_of_line hlines (by simp)
      · intro b' c d after' he _ hnew'
        rw [hsplit, hrest] at he
        have hc : c ∈ (b₁ ++ [c₁]).dropLast := by
          rw [he, List.dropLast_append_of_ne_nil (List.cons_ne_nil c _)]
          simp
        rw [List.dropLast_concat] at hc
        exact absurd hnew' (hopen c hc)
    | cons d₁ after =>
      rw [hrest] at hsplit
      rw [hsplit, hiddenFollowed_iff hopen hnew hend]
      exact ofOneLine_iff_of_hidden (hsplit ▸ hfile) hpass hstop hopen hnew hbefore hrest
  · have hopen : ∀ b ∈ before, ¬ HasNewline b := fun b hb hnew => hhidden ⟨b, hb, hnew⟩
    obtain ⟨hlines, htail⟩ := hfile.append hopen
    have hone : LinePair.OfOneLine ⟨.ofLiteral "", textsOf before ++ lastText tail⟩ total := by
      refine ofOneLine_of_line hlines fun chunk hchunk => ?_
      obtain ⟨after, rfl⟩ := List.head?_eq_some_iff.mp hchunk
      exact htail.cons.1
    refine iff_of_true hone ?_
    intro b' c d after' hsplit hend hnew
    rcases prefix_of_split hstop hsplit fun b hb => hend b (List.mem_append_left _ hb) with
      ⟨e, rfl⟩ | ⟨rfl, rfl⟩
    · exact absurd hnew (hopen c (by simp))
    · exact absurd (hstop c rfl) (hend c (by simp))

/-- A call that returns a pair reads nothing in front of the buffer. -/
theorem framesLine_iff_of_pair {next : List (List Cell) → NextResult} {content : List UInt8}
    {chunks rest : List (List Cell)} {pair : LinePair} (h : next chunks = .pair pair rest) :
    FramesLine next content chunks ↔ pair.OfOneLine (content.count newline) := by
  rw [FramesLine, h]
  refine ⟨fun hframes => hframes.2 pair rest rfl, fun hone => ⟨by simp, fun pair' rest' he => ?_⟩⟩
  obtain ⟨rfl, -⟩ := NextResult.pair.inj he
  exact hone

/-- A call that returns the pair of what it gathered keeps lines apart exactly on such chunks. -/
theorem framesLine_iff_of_stopsAt {next : List (List Cell) → NextResult} {content : List UInt8}
    {line : Nat} (hfile : FromLine line (content.count newline) (before ++ tail))
    (hpass : Passes before) (hstop : StopsAt tail)
    (hfits : ∀ chunk ∈ tail.head?, (textsOf (before ++ [chunk])).length ≤ intMax)
    {rest : List (List Cell)}
    (hnext : next (before ++ tail) =
      .pair ⟨.ofLiteral "", textsOf before ++ lastText tail⟩ rest) :
    FramesLine next content (before ++ tail) ↔ KeepsFraming (before ++ tail) := by
  rw [framesLine_iff_of_pair hnext, keepsFraming_iff_of_stopsAt hpass hstop hfits]
  exact ofOneLine_iff_hiddenFollowed hfile hpass hstop

end Call

/-- The loop keeps lines apart exactly on such chunks. -/
theorem framesLine_nextLine_iff {content : List UInt8} {line : Nat} {chunks : List (List Cell)}
    (hfile : FromLine line (content.count newline) chunks) :
    FramesLine (nextLine none) content chunks ↔ KeepsFraming chunks := by
  have houtcome := outcome_next chunks
  generalize hresult : nextLine none chunks = result at houtcome
  cases houtcome with
  | complete =>
    refine iff_of_true ⟨by simp [hresult], by simp [hresult]⟩
      ⟨fun b' c after' he => ?_, fun _ b' c d after' he => ?_⟩
    · simp at he
    · simp at he
  | unterminated hne hpass =>
    have hstop : StopsAt [] := by simp [StopsAt]
    have hnext : nextLine none (chunks ++ []) =
        .pair ⟨.ofLiteral "", textsOf chunks ++ lastText []⟩ [] := by
      rw [List.append_nil, lastText, List.append_nil, hresult]
    rw [← List.append_nil chunks] at hfile ⊢
    exact framesLine_iff_of_stopsAt hfile hpass hstop (by simp) hnext
  | @newline before chunk rest hpass hends hfits =>
    have hstop : StopsAt (chunk :: rest) := by simpa [StopsAt] using hends
    have hvalue : (textsOf (before ++ [chunk])).dropLast ++ [.terminator] =
        textsOf before ++ lastText (chunk :: rest) := by
      rw [textsOf_append, textsOf_singleton,
        List.dropLast_append_of_ne_nil (textOf_ne_nil_of_endsLine hends), lastText,
        List.append_assoc]
    rw [hvalue] at hresult
    exact framesLine_iff_of_stopsAt hfile hpass hstop (by simpa using hfits) hresult
  | @overflow before chunk rest hpass hover =>
    refine iff_of_true ⟨by simp [hresult], by simp [hresult]⟩
      ⟨fun b' c after' hsplit hopen hlen => ?_, fun hfits => ?_⟩
    · refine nonempty_of_passes hpass (fun c hc => ?_) hsplit hopen hlen
      obtain rfl : chunk = c := Option.some.inj hc
      refine ⟨fun hnil => ?_, Or.inr hover⟩
      rw [textsOf_append, textsOf_singleton, hnil, List.append_nil] at hover
      exact absurd hpass.fits (Nat.not_le_of_lt hover)
    · have hfit := hfits before chunk rest rfl hpass.open_end
      exact absurd hfit (Nat.not_le_of_lt hover)
  | @negativeIndex before chunk rest hpass hnil =>
    refine iff_of_false (fun h => h.1 hresult) fun h => ?_
    exact h.nonempty before chunk rest rfl hpass.open_end hpass.fits hnil

/-- On every file and at every call, both iterators stay inside the buffer and
within one line exactly when the chunks that are left keep the framing. -/
theorem framesLine_iff_keepsFraming {size : Nat} {content : List UInt8}
    {done chunks : List (List Cell)} (hread : Reading size (fileCells 0 content) (done ++ chunks)) :
    (FramesLine LineIterator.next content chunks ∧ FramesLine GzipIterator.next content chunks) ↔
      KeepsFraming chunks := by
  obtain ⟨line, hfile⟩ := hread.fromLine
  have hiff := framesLine_nextLine_iff hfile
  exact ⟨fun h => hiff.mp h.1, fun h => ⟨hiff.mpr h, hiff.mpr h⟩⟩

/-- A file of two lines, the first with a NUL in front of its newline. -/
def hiddenNewlineFile : List UInt8 := literal "a" ++ [0] ++ literal "b\nc\n"

/-- The chunks `fgets` makes of it. -/
def hiddenNewlineChunks : List (List Cell) :=
  fgetsAll LineIterator.ioBufferSize 6 (fileCells 0 hiddenNewlineFile)

theorem reading_hiddenNewlineChunks :
    Reading LineIterator.ioBufferSize (fileCells 0 hiddenNewlineFile) ([] ++ hiddenNewlineChunks) :=
  reading_fgetsAll (by decide) (by decide)

/-- The value `ac` is of both lines. -/
theorem not_framesLine_hiddenNewline :
    ¬ ∀ (size : Nat) (content : List UInt8) (done chunks : List (List Cell)),
      Reading size (fileCells 0 content) (done ++ chunks) →
        FramesLine LineIterator.next content chunks ∧
          FramesLine GzipIterator.next content chunks := by
  intro h
  have hone := (h _ _ [] hiddenNewlineChunks reading_hiddenNewlineChunks).1.2
    ⟨.ofLiteral "", [⟨97, some 0⟩, ⟨99, some 1⟩, .terminator]⟩ [] (by decide)
  have hsame := hone ⟨97, some 0⟩ (by decide) ⟨99, some 1⟩ (by decide) 0 1 rfl rfl
    (by decide) (by decide)
  exact absurd hsame (by decide)

/-- The first call on this file. -/
theorem framesLine_hiddenNewline :
    (FramesLine LineIterator.next hiddenNewlineFile hiddenNewlineChunks ∧
      FramesLine GzipIterator.next hiddenNewlineFile hiddenNewlineChunks) ↔
      KeepsFraming hiddenNewlineChunks :=
  framesLine_iff_keepsFraming reading_hiddenNewlineChunks

end Meguro
