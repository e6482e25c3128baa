import Meguro.Input.LineSplit
import Meguro.Input.TokyoCabinet

/-!
# From the input files to the map script

The name of an input decides which iterator reads it: a text file, compressed or
not, gives one pair with an empty key for each line, and a database one pair for
each record. So the map function is called once for each line and record of the
files that can be opened, in whatever way the workers share them.
-/

namespace Meguro

open Transition Interleaving Generator

/-- The C string at the start of a buffer that holds a NUL. -/
def CString.cut (bytes : List UInt8) : CString :=
  ⟨bytes.takeWhile (· ≠ 0), fun h => by simpa using List.mem_takeWhile_imp h⟩

/-- A record of a hash database: two strings of bytes. -/
structure HdbRecord where
  key : List UInt8
  value : List UInt8
  deriving DecidableEq

/-- What the libraries find at a path: the content that can be read, if it opens. -/
structure InputFiles where
  fopen : CString → Option (List UInt8)
  gzopen : CString → Option (List UInt8)
  tcadbopen : CString → Option (List KeyValuePair)
  tchdbopen : CString → Option (List HdbRecord)

/-- An initialized iterator: the chunks that `fgets` or `gzgets` still deliver, the
cursor of a B+ tree, or the records a hash database still lists. -/
inductive FileIterator
  | line (chunks : List (List Cell))
  | gzip (chunks : List (List Cell))
  | tokyoCabinet (tcdb : Adb)
  | tokyoCabinetHash (records : List HdbRecord)

/-- The path the B+ tree iterator and the dictionary open; `snprintf` cuts it to its
buffer. -/
def adbPath (uri : CString) : CString :=
  CString.truncate ⟨uri.bytes ++ literal "#mode=ref#opts=l",
    fun h => (List.mem_append.mp h).elim uri.nulFree (CString.ofLiteral _).nulFree⟩ 4095

/-- The successive chunks of a file. -/
def chunksOf (size : Nat) (content : List UInt8) : List (List Cell) :=
  fgetsAll size (fileCells 0 content).length (fileCells 0 content)

/-- `pick_an_iterator` and `initialize`; `none` is an `IteratorInitException`. -/
def InputFiles.initialize (files : InputFiles) (path : CString) : Option FileIterator :=
  match pickAnIterator path with
  | .line => (files.fopen path).map fun content =>
    .line (chunksOf LineIterator.ioBufferSize content)
  | .gzip => (files.gzopen path).map fun content =>
    .gzip (chunksOf GzipIterator.ioBufferSize content)
  | .tokyoCabinet => (files.tcadbopen (adbPath path)).map fun records =>
    .tokyoCabinet (.opened records)
  | .tokyoCabinetHash => (files.tchdbopen path).map .tokyoCabinetHash

/-- The pair of a line as the script gets it; without a NUL its value is no string. -/
def linePair? (result : NextResult) (iterator : List (List Cell) → FileIterator) :
    Option (Produce FileIterator KeyValuePair) :=
  match result with
  | .complete => some .stop
  | .pair pair rest =>
    if pair.Terminated then
      some (.item ⟨pair.key, .cut (pair.value.map Cell.byte)⟩ (iterator rest))
    else none
  | .overflow | .negativeIndex => none

/-- `next` of the iterators; `none` is a step without a defined behaviour. -/
def FileIterator.next : FileIterator → Option (Produce FileIterator KeyValuePair)
  | .line chunks => linePair? (LineIterator.next chunks) .line
  | .gzip chunks => linePair? (GzipIterator.next chunks) .gzip
  | .tokyoCabinet tcdb =>
    match TokyoCabinetIterator.next tcdb with
    | .item pair tcdb => some (.item pair (.tokyoCabinet tcdb))
    | .silent tcdb => some (.silent (.tokyoCabinet tcdb))
    | .stop => some .stop
  | .tokyoCabinetHash [] => some .stop
  | .tokyoCabinetHash (record :: records) =>
    some (.item ⟨.cut record.key, .cut record.value⟩ (.tokyoCabinetHash records))

/-- Calling `next` until it throws `IteratorCompleteException` returns these pairs. -/
inductive FileIterator.Drains : FileIterator → List KeyValuePair → Prop
  | stop {it} : it.next = some .stop → Drains it []
  | silent {it next pairs} : it.next = some (.silent next) → Drains next pairs → Drains it pairs
  | item {it pair rest pairs} : it.next = some (.item pair rest) → Drains rest pairs →
      Drains it (pair :: pairs)

/-- The iterator of a path does this. -/
def InputFiles.Reads (files : InputFiles) (path : CString) : InputPath → Prop
  | .initException => files.initialize path = none
  | .pairs ps => ∃ it, files.initialize path = some it ∧ it.Drains ps

/-! ## The files -/

/-- One pair for each line. -/
def linePairs (content : List UInt8) : List KeyValuePair :=
  (lines content).map fun line => ⟨.ofLiteral "", .cut line⟩

/-- The pairs of the file at a path. -/
def InputFiles.pairsAt (files : InputFiles) (path : CString) : List KeyValuePair :=
  match pickAnIterator path with
  | .line => ((files.fopen path).map linePairs).getD []
  | .gzip => ((files.gzopen path).map linePairs).getD []
  | .tokyoCabinet => ((files.tcadbopen (adbPath path)).map fun records =>
    records.map (readBack records)).getD []
  | .tokyoCabinetHash => ((files.tchdbopen path).map fun records =>
    records.map fun record => ⟨.cut record.key, .cut record.value⟩).getD []

/-- A text the line iterators can handle: no NUL, lines that fit an `int`, and a
newline at the end. -/
structure PlainText (content : List UInt8) : Prop where
  nulFree : 0 ∉ content
  closed : content = [] ∨ content.getLast? = some newline
  fits : ∀ raw ∈ rawLines content, raw.length ≤ intMax

/-- A text the iterator of this path reads line by line is such a text. -/
structure InputFiles.PlainAt (files : InputFiles) (path : CString) : Prop where
  line : pickAnIterator path = .line → ∀ content ∈ files.fopen path, PlainText content
  gzip : pickAnIterator path = .gzip → ∀ content ∈ files.gzopen path, PlainText content

theorem CString.cut_append_nul {line : List UInt8} (h : 0 ∉ line) :
    CString.cut (line ++ [0]) = CString.cut line := by
  apply CString.ext
  change (line ++ [0]).takeWhile (· ≠ 0) = line.takeWhile (· ≠ 0)
  rw [takeWhile_append_nul h, takeWhile_of_nulFree h]

/-- What is left of a closed text behind a line is closed. -/
theorem closed_of_append {line rest : List UInt8}
    (h : (line ++ newline :: rest).getLast? = some newline) :
    rest = [] ∨ rest.getLast? = some newline := by
  cases rest with
  | nil => exact .inl rfl
  | cons b bs =>
    refine .inr ?_
    simpa [List.getLast?_append, List.getLast?_cons_cons] using h

/-- An iterator that takes its chunks to `nextLine` returns the lines of a closed text. -/
theorem drains_lines {iterator : List (List Cell) → FileIterator}
    (hnext : ∀ chunks, (iterator chunks).next = linePair? (nextLine none chunks) iterator)
    (chunks : List (List Cell)) (hplain : ∀ chunk ∈ chunks, IsPlain chunk)
    (hclosed : bytesOf chunks = [] ∨ (bytesOf chunks).getLast? = some newline)
    (hfits : ∀ raw ∈ rawLines (bytesOf chunks), raw.length ≤ intMax) :
    (iterator chunks).Drains (linePairs (bytesOf chunks)) := by
  induction hlen : chunks.length using Nat.strongRecOn generalizing chunks with
  | ind n ih =>
    have houtcome := plainOutcome_next hplain
    have hstep := hnext chunks
    generalize nextLine none chunks = result at houtcome hstep
    cases houtcome with
    | complete hnil =>
      rw [hnil]
      exact .stop hstep
    | unterminated hopen hne hnul hshort hvalue =>
      have hlast := hclosed.resolve_left hne
      exact absurd (List.mem_of_getLast? hlast) hopen
    | @newline line value rest hopen hnul hshort hbytes hvalue hrest hlt =>
      rw [hbytes] at hclosed hfits ⊢
      rw [rawLines_newline hopen, List.forall_mem_cons] at hfits
      have hlater := ih rest.length (hlen ▸ hlt) rest hrest
        (closed_of_append (hclosed.resolve_left (by simp))) hfits.2 rfl
      have hterminated : LinePair.Terminated ⟨.ofLiteral "", value⟩ := by
        have hmem : 0 ∈ value.map Cell.byte := by rw [hvalue]; simp
        obtain ⟨cell, hcell, hzero⟩ := List.mem_map.mp hmem
        exact ⟨cell, hcell, hzero⟩
      have hpair : (iterator chunks).next =
          some (.item ⟨.ofLiteral "", .cut line⟩ (iterator rest)) := by
        rw [hstep]
        unfold linePair?
        dsimp only
        rw [if_pos hterminated, hvalue, CString.cut_append_nul hnul]
      unfold linePairs
      rw [lines_newline hopen, List.map_cons]
      exact .item hpair hlater
    | overflow hlong =>
      obtain ⟨raw, hraw, hlong⟩ := hlong
      exact absurd (hfits raw hraw) (Nat.not_le_of_lt hlong)

/-- Such an iterator returns the lines of a plain text, whatever its buffer. -/
theorem drains_plainText {iterator : List (List Cell) → FileIterator}
    (hnext : ∀ chunks, (iterator chunks).next = linePair? (nextLine none chunks) iterator)
    {size : Nat} (hsize : 2 ≤ size) {content : List UInt8} (htext : PlainText content) :
    (iterator (chunksOf size content)).Drains (linePairs content) := by
  have hread : Reading size (fileCells 0 content) (chunksOf size content) :=
    reading_fgetsAll hsize (Nat.le_refl _)
  have hbytes := bytesOf_of_reading hread
  have hdrains := drains_lines hnext _ (hread.isPlain htext.nulFree)
    (hbytes.symm ▸ htext.closed) (hbytes.symm ▸ htext.fits)
  rwa [hbytes] at hdrains

theorem drains_tokyoCabinet {tcdb : Adb} {pairs : List KeyValuePair}
    (h : Yields TokyoCabinetIterator.next tcdb pairs) :
    (FileIterator.tokyoCabinet tcdb).Drains pairs := by
  induction h with
  | stop hs => exact .stop (by rw [FileIterator.next, hs])
  | silent hs _ ih => exact .silent (by rw [FileIterator.next, hs]) ih
  | item hs _ ih => exact .item (by rw [FileIterator.next, hs]) ih

theorem drains_tokyoCabinetHash (records : List HdbRecord) :
    (FileIterator.tokyoCabinetHash records).Drains
      (records.map fun record => ⟨.cut record.key, .cut record.value⟩) := by
  induction records with
  | nil => exact .stop rfl
  | cons record records ih => exact .item rfl ih

/-- An iterator returns one list of pairs. -/
theorem FileIterator.Drains.unique {it : FileIterator} {xs ys : List KeyValuePair}
    (hx : it.Drains xs) (hy : it.Drains ys) : xs = ys := by
  induction hx generalizing ys with
  | stop hs =>
    cases hy with
    | stop => rfl
    | silent ht => rw [hs] at ht; cases ht
    | item ht => rw [hs] at ht; cases ht
  | silent hs _ ih =>
    cases hy with
    | stop ht => rw [hs] at ht; cases ht
    | silent ht hrest =>
      rw [hs] at ht
      cases ht
      exact ih hrest
    | item ht => rw [hs] at ht; cases ht
  | item hs _ ih =>
    cases hy with
    | stop ht => rw [hs] at ht; cases ht
    | silent ht => rw [hs] at ht; cases ht
    | item ht hrest =>
      rw [hs] at ht
      cases ht
      rw [ih hrest]

/-- What an iterator does is one of its two outcomes. -/
theorem InputFiles.reads_iff {files : InputFiles} {path : CString} {opened : Option FileIterator}
    {ps : List KeyValuePair} (hinit : files.initialize path = opened)
    (hdrains : ∀ it ∈ opened, it.Drains ps) (input : InputPath) :
    files.Reads path input ↔ input = if opened = none then .initException else .pairs ps := by
  subst hinit
  unfold InputFiles.Reads
  cases hopened : files.initialize path with
  | none => cases input <;> simp
  | some it =>
    have hit := hdrains it hopened
    cases input with
    | initException => simp
    | pairs qs =>
      simp only [Option.some.injEq, exists_eq_left', reduceCtorEq, if_false, InputPath.pairs.injEq]
      exact ⟨fun hqs => hqs.unique hit, fun heq => heq ▸ hit⟩

/-! ## The map phase on files -/

variable {files : InputFiles} {path : CString}

/-- What the iterator of a path does with these files. -/
def InputFiles.inputAt (files : InputFiles) (path : CString) : InputPath :=
  if InputFiles.initialize files path = none then .initException else .pairs (files.pairsAt path)

/-- The iterator of a path returns the pairs of its file. -/
theorem drains_pairsAt (h : files.PlainAt path) {it : FileIterator}
    (hit : files.initialize path = some it) : it.Drains (files.pairsAt path) := by
  unfold InputFiles.initialize at hit
  unfold InputFiles.pairsAt
  cases hkind : pickAnIterator path with
  | line =>
    rw [hkind] at hit
    obtain ⟨content, hcontent, rfl⟩ := Option.map_eq_some_iff.mp hit
    rw [hcontent]
    exact drains_plainText (fun _ => rfl) (by decide) (h.line hkind content hcontent)
  | gzip =>
    rw [hkind] at hit
    obtain ⟨content, hcontent, rfl⟩ := Option.map_eq_some_iff.mp hit
    rw [hcontent]
    exact drains_plainText (fun _ => rfl) (by decide) (h.gzip hkind content hcontent)
  | tokyoCabinet =>
    rw [hkind] at hit
    obtain ⟨records, hrecords, rfl⟩ := Option.map_eq_some_iff.mp hit
    rw [hrecords]
    exact drains_tokyoCabinet (yields_readBack records)
  | tokyoCabinetHash =>
    rw [hkind] at hit
    obtain ⟨records, hrecords, rfl⟩ := Option.map_eq_some_iff.mp hit
    rw [hrecords]
    exact drains_tokyoCabinetHash records

/-- A file that cannot be opened has no pairs. -/
theorem pairsAt_of_initialize_eq_none (h : files.initialize path = none) :
    files.pairsAt path = [] := by
  unfold InputFiles.initialize at h
  unfold InputFiles.pairsAt
  cases hkind : pickAnIterator path <;> rw [hkind] at h <;>
    rw [Option.map_eq_none_iff.mp h] <;> rfl

theorem reads_inputAt_iff (h : files.PlainAt path) (input : InputPath) :
    files.Reads path input ↔ input = files.inputAt path :=
  InputFiles.reads_iff rfl (fun _ hit => drains_pairsAt h hit) input

/-- The selected pairs of what the iterators do are those of the files. -/
theorem selectedPairs_of_reads {keyPattern : Option CString} {paths : List CString}
    {inputs : List InputPath} (hplain : ∀ path ∈ paths, files.PlainAt path)
    (hreads : List.Forall₂ files.Reads paths inputs) : selectedPairs keyPattern inputs =
      paths.flatMap fun path => (files.pairsAt path).filter (matchesPattern keyPattern) := by
  induction hreads with
  | nil => rfl
  | @cons path input paths inputs hread hreads ih =>
    have hrest := ih fun path hpath => hplain path (List.mem_cons_of_mem _ hpath)
    obtain rfl := (reads_inputAt_iff (hplain path (List.mem_cons_self ..)) input).mp hread
    unfold selectedPairs at hrest ⊢
    rw [List.flatMap_cons, List.flatMap_cons, hrest]
    congr 1
    unfold InputFiles.inputAt
    cases hopened : files.initialize path with
    | none =>
      rw [pairsAt_of_initialize_eq_none hopened]
      rfl
    | some it => rfl

/-- When `map_master` has joined its workers, every line of the texts and every
record of the databases has been attempted once, if its key is selected: the
attempts are the pairs of the files, dealt to the workers in input order. -/
theorem filesMapped_of_joined {n : Nat} (hn : 0 < n) {incremental : Bool}
    {file : Option (Records CString)} {keyPattern : Option CString} {paths : List CString}
    {inputs : List InputPath} (hplain : ∀ path ∈ paths, files.PlainAt path)
    (hreads : List.Forall₂ files.Reads paths inputs)
    {ls : List (PhaseLabel n KeyValuePair ReadState (MapperLabel (Fin n)))}
    {s : PhaseState n KeyValuePair ReadState (MapperState (Fin n))}
    (h : run (PhaseState.step (mapParts n incremental file keyPattern inputs))
      (PhaseState.start MapperState.unopened) ls = some s) (hjoined : s.Joined) :
    ∃ dealt : List (Fin n × KeyValuePair), dealt.map Prod.snd =
        (paths.flatMap fun path => (files.pairsAt path).filter (matchesPattern keyPattern)) ∧
      (attempted ls).Perm dealt ∧ ∀ w, ofOwner w (attempted ls) = ofOwner w dealt := by
  obtain ⟨hread, howner⟩ := PhaseState.run_joined hn (fun _ => rfl) h hjoined
  refine ⟨handed ls, ?_, perm_of_ofOwner_eq howner, howner⟩
  rw [← selectedPairs_of_reads hplain hreads]
  exact hread.unique (yields_readStep keyPattern inputs)

/-- A text of two lines, and a map output. -/
def textAndDatabase : InputFiles where
  fopen _ := some (literal "one\ntwo\n")
  gzopen _ := none
  tcadbopen _ := none
  tchdbopen _ := some [⟨literal "k", literal "3" ++ [0] ++ literal "4"⟩]

/-- The name of the text, that of the database, and that of a file that is missing. -/
def threeNames : List CString :=
  [.ofLiteral "a.txt", .ofLiteral "map.TCH", .ofLiteral "b.txt.gz"]

theorem plainAt_textAndDatabase (path : CString) : textAndDatabase.PlainAt path where
  line _ content hcontent := by
    obtain rfl : literal "one\ntwo\n" = content := Option.some.inj hcontent
    exact ⟨by decide, by decide, by decide⟩
  gzip _ _ hcontent := absurd hcontent (Option.not_mem_none _)

/-- What the iterators do with these names. -/
def threePaths : List InputPath :=
  [.pairs [pairOf "" "one", pairOf "" "two"], .pairs [pairOf "k" "3"], .initException]

theorem reads_threeNames : List.Forall₂ textAndDatabase.Reads threeNames threePaths :=
  .cons ((reads_inputAt_iff (plainAt_textAndDatabase _) _).mpr (by decide +kernel))
    (.cons ((reads_inputAt_iff (plainAt_textAndDatabase _) _).mpr (by decide +kernel))
      (.cons ((reads_inputAt_iff (plainAt_textAndDatabase _) _).mpr (by decide +kernel)) .nil))

/-- The first worker maps the first line and the record, the second worker the second
line. -/
def threeFilesRun : List (PhaseLabel 2 KeyValuePair ReadState (MapperLabel (Fin 2))) :=
  let first := pairOf "" "one"
  let second := pairOf "" "two"
  let record := pairOf "k" "3"
  [.create worker₁, .create worker₂, .openOut, .started worker₁ true, .started worker₂ true,
    .read ⟨none, threePaths⟩ (.silent ⟨some [first, second], threePaths.tail⟩),
    .read ⟨some [first, second], threePaths.tail⟩ (.item first ⟨some [second], threePaths.tail⟩)] ++
  enqueueSteps first ++
  [.read ⟨some [second], threePaths.tail⟩ (.item second ⟨some [], threePaths.tail⟩)] ++
  enqueueSteps second ++ dequeueSteps worker₁ first ++ dequeueSteps worker₂ second ++
  [.attempt worker₂ second true, .attempt worker₁ first true,
    .act worker₁ (.emitLocked worker₁ first.value first.value first.value),
    .read ⟨some [], threePaths.tail⟩ (.silent ⟨none, threePaths.tail⟩),
    .act worker₁ (.put worker₁ first.value first.value true), .returned worker₁ first,
    .returned worker₂ second,
    .read ⟨none, threePaths.tail⟩ (.silent ⟨some [record], [.initException]⟩),
    .read ⟨some [record], [.initException]⟩ (.item record ⟨some [], [.initException]⟩)] ++
  enqueueSteps record ++ dequeueSteps worker₁ record ++
  [.attempt worker₁ record true, .returned worker₁ record,
    .read ⟨some [], [.initException]⟩ (.silent ⟨none, [.initException]⟩),
    .read ⟨none, [.initException]⟩ (.silent ⟨none, []⟩)] ++
  closeSteps ⟨none, []⟩

theorem threeFilesRun_isSome :
    (run (PhaseState.step (mapParts 2 false none none threePaths))
      (PhaseState.start MapperState.unopened) threeFilesRun).isSome = true := by
  decide

theorem filesMapped_threeFilesRun :
    ∃ dealt : List (Fin 2 × KeyValuePair), dealt.map Prod.snd =
        (threeNames.flatMap fun path =>
          (textAndDatabase.pairsAt path).filter (matchesPattern none)) ∧
      (attempted threeFilesRun).Perm dealt ∧
        ∀ w, ofOwner w (attempted threeFilesRun) = ofOwner w dealt := by
  have hjoined : ((run (PhaseState.step (mapParts 2 false none none threePaths))
      (PhaseState.start MapperState.unopened) threeFilesRun).get threeFilesRun_isSome).Joined :=
    .inr (by decide)
  exact filesMapped_of_joined (by decide) (fun path _ => plainAt_textAndDatabase path)
    reads_threeNames (Option.some_get _).symm hjoined

end Meguro
