import Meguro.Text.CString

/-!
# Reading lines through a buffer

`LineIterator::next` and `GzipIterator::next` share one loop: `fgets` or `gzgets`
delivers the file in chunks, and the loop copies the text of each chunk, as far
as `strlen` sees it, behind what it has, until a text ends in a newline, which
the terminator replaces, or no chunk is left. The sum of the lengths is an `int`
and the last byte is read at `len - 1`, so the loop also has two ways to leave
what the language defines.
-/

namespace Meguro

/-- The byte `'\n'`. -/
def newline : UInt8 := 10

/-- A byte in a buffer, with the number of the line of the file it was read from;
the terminator the program writes itself has none. -/
structure Cell where
  byte : UInt8
  line : Option Nat
  deriving DecidableEq

/-- The byte `'\0'` written over the newline. -/
def Cell.terminator : Cell := ⟨0, none⟩

/-- The bytes of a file, or of its rest from a line of this number on. -/
def fileCells (line : Nat) : List UInt8 → List Cell
  | [] => []
  | b :: bs => ⟨b, some line⟩ :: fileCells (if b = newline then line + 1 else line) bs

/-! ## The chunks -/

/-- What `fgets` and `gzgets` put in a buffer of this size, before the NUL: at
least one byte, at most one less than the size, nothing behind a newline. -/
structure IsChunk (size : Nat) (chunk : List Cell) : Prop where
  ne_nil : chunk ≠ []
  length_lt : chunk.length < size
  newline_last : ∀ cell ∈ chunk.dropLast, cell.byte ≠ newline

/-- Successive calls deliver these chunks and then NULL, when no byte is left. -/
structure Reading (size : Nat) (file : List Cell) (chunks : List (List Cell)) : Prop where
  flatten : chunks.flatten = file
  isChunk : ∀ chunk ∈ chunks, IsChunk size chunk

/-- `fgets` itself fills the buffer as far as it can: the chunk with room for
this many bytes, and the rest of the file. -/
def fgets : Nat → List Cell → List Cell × List Cell
  | 0, file => ([], file)
  | _ + 1, [] => ([], [])
  | room + 1, cell :: file =>
    if cell.byte = newline then ([cell], file)
    else (cell :: (fgets room file).1, (fgets room file).2)

/-- The chunks of a file, in at most `fuel` calls of `fgets`. -/
def fgetsAll (size : Nat) : Nat → List Cell → List (List Cell)
  | 0, _ => []
  | _ + 1, [] => []
  | fuel + 1, cell :: file =>
    (fgets (size - 1) (cell :: file)).1 :: fgetsAll size fuel (fgets (size - 1) (cell :: file)).2

theorem fgets_append (room : Nat) (file : List Cell) :
    (fgets room file).1 ++ (fgets room file).2 = file := by
  induction room generalizing file with
  | zero => rfl
  | succ room ih =>
    cases file with
    | nil => rfl
    | cons cell file =>
      rw [fgets]
      split
      · rfl
      · exact congrArg (cell :: ·) (ih file)

theorem isChunk_fgets {size : Nat} (hsize : 2 ≤ size) {file : List Cell} (h : file ≠ []) :
    IsChunk size (fgets (size - 1) file).1 := by
  have hgen : ∀ (room : Nat) (file : List Cell), (fgets room file).1.length ≤ room ∧
      ∀ cell ∈ (fgets room file).1.dropLast, cell.byte ≠ newline := by
    intro room
    induction room with
    | zero => exact fun file => ⟨Nat.le_refl _, by simp [fgets]⟩
    | succ room ih =>
      intro file
      cases file with
      | nil => exact ⟨Nat.zero_le _, by simp [fgets]⟩
      | cons cell file =>
        obtain ⟨hlen, hlast⟩ := ih file
        rw [fgets]
        split
        · exact ⟨by simp, by simp⟩
        · rename_i hne
          refine ⟨Nat.succ_le_succ hlen, fun x hx => ?_⟩
          have hx' : x ∈ cell :: (fgets room file).1.dropLast := by
            cases hrest : (fgets room file).1 with
            | nil => simp [hrest] at hx
            | cons y ys => simpa [hrest] using hx
          rcases List.mem_cons.mp hx' with rfl | hx'
          · exact hne
          · exact hlast x hx'
  obtain ⟨hlen, hlast⟩ := hgen (size - 1) file
  refine ⟨?_, by omega, hlast⟩
  obtain ⟨cell, rest, rfl⟩ := List.exists_cons_of_ne_nil h
  obtain ⟨room, hroom⟩ : ∃ room, size - 1 = room + 1 := ⟨size - 2, by omega⟩
  rw [hroom, fgets]
  split
  · exact List.cons_ne_nil cell []
  · exact List.cons_ne_nil cell (fgets room rest).1

/-- With a buffer for at least one byte, `fgets` reads every file. -/
theorem reading_fgetsAll {size : Nat} (hsize : 2 ≤ size) {fuel : Nat} {file : List Cell}
    (h : file.length ≤ fuel) : Reading size file (fgetsAll size fuel file) := by
  induction fuel generalizing file with
  | zero =>
    obtain rfl : file = [] := List.length_eq_zero_iff.mp (Nat.le_zero.mp h)
    exact ⟨rfl, by simp [fgetsAll]⟩
  | succ fuel ih =>
    cases file with
    | nil => exact ⟨rfl, by simp [fgetsAll]⟩
    | cons cell file =>
      have hchunk := isChunk_fgets hsize (List.cons_ne_nil cell file)
      have happend := fgets_append (size - 1) (cell :: file)
      have hlen := congrArg List.length happend
      have hpos := List.length_pos_iff.mpr hchunk.ne_nil
      rw [List.length_append] at hlen
      rw [List.length_cons] at h hlen
      have hrest : Reading size (fgets (size - 1) (cell :: file)).2 _ := ih (by omega)
      refine ⟨?_, ?_⟩
      · rw [fgetsAll, List.flatten_cons, hrest.flatten, happend]
      · rw [fgetsAll]
        exact List.forall_mem_cons.mpr ⟨hchunk, hrest.isChunk⟩

/-! ## The loop -/

/-- The largest `int`. -/
def intMax : Nat := 2 ^ 31 - 1

/-- The part of a chunk that `strlen` measures. -/
def textOf (chunk : List Cell) : List Cell := chunk.takeWhile (·.byte ≠ 0)

/-- The pair made of a line. -/
structure LinePair where
  key : CString
  value : List Cell
  deriving DecidableEq

/-- What a call of `next` comes to: an `IteratorCompleteException`, a pair, or
one of two undefined steps: the `int` sum `full_len + len` overflows, or
`line[len - 1]` is read with `len` 0. -/
inductive NextResult
  | complete
  | pair (pair : LinePair) (rest : List (List Cell))
  | overflow
  | negativeIndex
  deriving DecidableEq

/-- The loop of `next`, with `full_line` so far, on the chunks that are left. -/
def nextLine (fullLine : Option (List Cell)) : List (List Cell) → NextResult
  | [] =>
    match fullLine with
    | none => .complete
    | some fullLine => .pair ⟨.ofLiteral "", fullLine⟩ []
  | chunk :: rest =>
    let line := textOf chunk
    let fullLine := fullLine.getD [] ++ line
    if fullLine.length > intMax then .overflow
    else
      match line.getLast? with
      | none => .negativeIndex
      | some last =>
        if last.byte = newline then
          .pair ⟨.ofLiteral "", fullLine.dropLast ++ [.terminator]⟩ rest
        else nextLine (some fullLine) rest

/-- `LineIterator::IO_BUFFER_SIZE`. -/
def LineIterator.ioBufferSize : Nat := 4096

/-- `LineIterator::next`. -/
def LineIterator.next : List (List Cell) → NextResult := nextLine none

/-- `GzipIterator::IO_BUFFER_SIZE`. -/
def GzipIterator.ioBufferSize : Nat := 8192

/-- `GzipIterator::next`. -/
def GzipIterator.next : List (List Cell) → NextResult := nextLine none

/-- Calling `next` until it throws `IteratorCompleteException` returns these pairs. -/
inductive Iterates (next : List (List Cell) → NextResult) : List (List Cell) → List LinePair → Prop
  | complete {chunks} : next chunks = .complete → Iterates next chunks []
  | pair {chunks pair rest pairs} : next chunks = .pair pair rest → Iterates next rest pairs →
      Iterates next chunks (pair :: pairs)

/-! ## What a call comes to -/

/-- A text ends in a newline: the loop stops there. -/
def EndsLine (chunk : List Cell) : Prop := (textOf chunk).getLast?.map Cell.byte = some newline

instance (chunk : List Cell) : Decidable (EndsLine chunk) :=
  inferInstanceAs (Decidable (_ = _))

/-- The texts of chunks, one behind the other. -/
def textsOf (chunks : List (List Cell)) : List Cell := chunks.flatMap textOf

@[simp] theorem textsOf_nil : textsOf [] = [] := rfl

@[simp] theorem textsOf_append (xs ys : List (List Cell)) :
    textsOf (xs ++ ys) = textsOf xs ++ textsOf ys :=
  List.flatMap_append

@[simp] theorem textsOf_singleton (chunk : List Cell) : textsOf [chunk] = textOf chunk :=
  List.flatMap_singleton ..

/-- Chunks after which the loop goes on. -/
structure Passes (chunks : List (List Cell)) : Prop where
  ne_nil : ∀ chunk ∈ chunks, textOf chunk ≠ []
  open_end : ∀ chunk ∈ chunks, ¬ EndsLine chunk
  fits : (textsOf chunks).length ≤ intMax

/-- The result of a call, by the chunk it stops at. -/
inductive Outcome : List (List Cell) → NextResult → Prop
  | complete : Outcome [] .complete
  | unterminated {before} : before ≠ [] → Passes before →
      Outcome before (.pair ⟨.ofLiteral "", textsOf before⟩ [])
  | newline {before chunk rest} : Passes before → EndsLine chunk →
      (textsOf (before ++ [chunk])).length ≤ intMax →
      Outcome (before ++ chunk :: rest)
        (.pair ⟨.ofLiteral "", (textsOf (before ++ [chunk])).dropLast ++ [.terminator]⟩ rest)
  | overflow {before chunk rest} : Passes before →
      intMax < (textsOf (before ++ [chunk])).length → Outcome (before ++ chunk :: rest) .overflow
  | negativeIndex {before chunk rest} : Passes before → textOf chunk = [] →
      Outcome (before ++ chunk :: rest) .negativeIndex

/-- `full_line` after these chunks. -/
def gathered (before : List (List Cell)) : Option (List Cell) :=
  if before = [] then none else some (textsOf before)

theorem getD_gathered (before : List (List Cell)) : (gathered before).getD [] = textsOf before := by
  rw [gathered]
  split
  · rename_i h
    rw [h]
    rfl
  · rfl

theorem outcome_from {before : List (List Cell)} (hbefore : Passes before)
    (chunks : List (List Cell)) :
    Outcome (before ++ chunks) (nextLine (gathered before) chunks) := by
  induction chunks generalizing before with
  | nil =>
    rw [List.append_nil]
    by_cases h : before = []
    · subst h
      exact .complete
    · rw [gathered, if_neg h]
      exact .unterminated h hbefore
  | cons chunk rest ih =>
    have hfull : (gathered before).getD [] ++ textOf chunk = textsOf (before ++ [chunk]) := by
      rw [getD_gathered, textsOf_append, textsOf_singleton]
    rw [nextLine]
    simp only [hfull]
    split
    · rename_i hover
      exact .overflow hbefore hover
    · rename_i hfits
      have hfits := Nat.le_of_not_lt hfits
      split
      · rename_i hnone
        exact .negativeIndex hbefore (List.getLast?_eq_none_iff.mp hnone)
      · rename_i last hlast
        split
        · rename_i hbyte
          exact .newline hbefore (by rw [EndsLine, hlast]; exact congrArg some hbyte) hfits
        · rename_i hbyte
          have hpass : Passes (before ++ [chunk]) := by
            refine ⟨fun c hc => ?_, fun c hc => ?_, hfits⟩
            · rcases List.mem_append.mp hc with hc | hc
              · exact hbefore.ne_nil c hc
              · rw [List.mem_singleton.mp hc]
                rintro hnil
                rw [hnil] at hlast
                cases hlast
            · rcases List.mem_append.mp hc with hc | hc
              · exact hbefore.open_end c hc
              · rw [List.mem_singleton.mp hc, EndsLine, hlast]
                exact fun h => hbyte (Option.some.inj h)
          have hgathered : gathered (before ++ [chunk]) = some (textsOf (before ++ [chunk])) :=
            if_neg (by simp)
          rw [← hgathered, show before ++ chunk :: rest = before ++ [chunk] ++ rest by simp]
          exact ih hpass

/-- Every call comes to one of five ends. -/
theorem outcome_next (chunks : List (List Cell)) : Outcome chunks (nextLine none chunks) :=
  outcome_from (show Passes [] from ⟨by simp, by simp, Nat.zero_le _⟩) chunks

end Meguro
