import Meguro.Input.Files

/-!
# Listing a database

With `-l` the program prints the records of its input files, a tab behind every
key and a newline behind every value, and stops at the first file it cannot open.
The listing can be read back exactly when no key has a tab and no record a
newline.
-/

namespace Meguro

/-- The tab between a key and its value. -/
def tab : UInt8 := 9

/-- Two hexadecimal digits, as `%02X` prints them. -/
def printHex (byte : UInt8) : List UInt8 :=
  let digits := literal "0123456789ABCDEF"
  [digits.getD (byte.toNat / 16) 0, digits.getD (byte.toNat % 16) 0]

/-- `printdata`: the bytes themselves, or in hexadecimal with a space between. -/
def printdata (bytes : List UInt8) (px : Bool) : List UInt8 :=
  if px then [32].intercalate (bytes.map printHex) else bytes

/-- What the loop over the records prints for one of them. -/
def printRecord (record : HdbRecord) : List UInt8 :=
  printdata record.key false ++ tab :: (printdata record.value false ++ [newline])

/-- `print_input_files`: what it prints to `stdout`. -/
def printInputFiles (files : InputFiles) : List CString → List UInt8
  | [] => []
  | path :: paths =>
    match files.tchdbopen path with
    | none => []
    | some records => records.flatMap printRecord ++ printInputFiles files paths

/-- The records of the files in front of the first that cannot be opened. -/
def listedRecords (files : InputFiles) (paths : List CString) : List HdbRecord :=
  ((paths.map files.tchdbopen).takeWhile Option.isSome).flatMap (·.getD [])

/-- A line of a listing, split at its first tab. -/
def splitTab (line : List UInt8) : HdbRecord :=
  ⟨line.takeWhile (· ≠ tab), (line.dropWhile (· ≠ tab)).tail⟩

/-- The records a listing shows. -/
def readListing (listing : List UInt8) : List HdbRecord := (lines listing).map splitTab

/-- A record whose bytes cannot be taken for a separator. -/
structure HdbRecord.Printable (record : HdbRecord) : Prop where
  tab_notMem : tab ∉ record.key
  newline_notMem_key : newline ∉ record.key
  newline_notMem_value : newline ∉ record.value

/-! ## Reading a listing -/

/-- The listing shows the records one behind the other. -/
theorem printInputFiles_eq (files : InputFiles) (paths : List CString) :
    printInputFiles files paths = (listedRecords files paths).flatMap printRecord := by
  induction paths with
  | nil => rfl
  | cons path paths ih =>
    unfold printInputFiles
    cases hopen : files.tchdbopen path with
    | none =>
      unfold listedRecords
      rw [List.map_cons, hopen]
      rfl
    | some records =>
      have hlisted : listedRecords files (path :: paths) =
          records ++ listedRecords files paths := by
        unfold listedRecords
        rw [List.map_cons, hopen]
        rfl
      dsimp only
      rw [hlisted, List.flatMap_append, ih]

/-- No line of a text has a newline. -/
theorem newline_notMem_of_mem_lines {content line : List UInt8} (h : line ∈ lines content) :
    newline ∉ line := by
  induction hlen : content.length using Nat.strongRecOn generalizing content with
  | ind n ih =>
    by_cases hmem : newline ∈ content
    · obtain ⟨first, rest, rfl, hopen⟩ := List.eq_append_cons_of_mem hmem
      rw [lines_newline hopen, List.mem_cons] at h
      rcases h with rfl | h
      · exact hopen
      · exact ih rest.length (by rw [← hlen, List.length_append, List.length_cons]; omega) h rfl
    · cases content with
      | nil => cases h
      | cons b bs =>
        rw [lines_open hmem (List.cons_ne_nil b bs), List.mem_singleton] at h
        exact h ▸ hmem

/-- What is split off a line has no separator in a wrong place. -/
theorem printable_splitTab {line : List UInt8} (h : newline ∉ line) : (splitTab line).Printable where
  tab_notMem hmem := by simpa using List.mem_takeWhile_imp hmem
  newline_notMem_key hmem := h ((List.takeWhile_sublist _).mem hmem)
  newline_notMem_value hmem :=
    h ((List.dropWhile_sublist _).mem (List.mem_of_mem_tail hmem))

/-- The line of a record splits at the tab behind its key. -/
theorem splitTab_append {key : List UInt8} (h : tab ∉ key) (value : List UInt8) :
    splitTab (key ++ tab :: value) = ⟨key, value⟩ := by
  have hkey : ∀ b ∈ key, decide (b ≠ tab) = true := fun b hb =>
    decide_eq_true (ne_of_mem_of_not_mem hb h)
  unfold splitTab
  rw [List.takeWhile_append_of_pos hkey, List.dropWhile_append_of_pos hkey]
  simp

/-- Printable records are read back from what is printed for them. -/
theorem readListing_flatMap {records : List HdbRecord} (h : ∀ r ∈ records, r.Printable) :
    readListing (records.flatMap printRecord) = records := by
  induction records with
  | nil => rfl
  | cons record records ih =>
    obtain ⟨hrecord, hrest⟩ := List.forall_mem_cons.mp h
    have hopen : newline ∉ record.key ++ tab :: record.value := by
      rw [List.mem_append, List.mem_cons]
      rintro (hkey | htab | hvalue)
      · exact hrecord.newline_notMem_key hkey
      · cases htab
      · exact hrecord.newline_notMem_value hvalue
    have hsplit : (record :: records).flatMap printRecord =
        (record.key ++ tab :: record.value) ++ newline :: records.flatMap printRecord := by
      simp [printRecord, printdata]
    have hlater := ih hrest
    unfold readListing at hlater ⊢
    rw [hsplit, lines_newline hopen, List.map_cons, splitTab_append hrecord.tab_notMem, hlater]

/-- The listing gives the records of the files back exactly when none of them has
a separator in a wrong place. -/
theorem readListing_iff_printable (files : InputFiles) (paths : List CString) :
    readListing (printInputFiles files paths) = listedRecords files paths ↔
      ∀ record ∈ listedRecords files paths, record.Printable := by
  rw [printInputFiles_eq]
  refine ⟨fun h record hrecord => ?_, readListing_flatMap⟩
  rw [← h] at hrecord
  obtain ⟨line, hline, rfl⟩ := List.mem_map.mp hrecord
  exact printable_splitTab (newline_notMem_of_mem_lines hline)

end Meguro
