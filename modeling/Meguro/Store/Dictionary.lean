import Meguro.Input.Files
import Meguro.Script.NativeCallbacks
import Meguro.Uthash.Destroy
import Meguro.Uthash.Jenkins

/-!
# The dictionary

`Dictionary::load` puts one element into a hash table for every record of a
Tokyo Cabinet file, without looking for the key first, and takes the value from a
lookup by key. A file that lists a key twice leaves two elements of that key.
They hold one value, so whichever of them a search meets, the script is answered
as the file itself would answer. Keys and values end at their first NUL, and a key
that was longer in the file is not found in it again: its value is the empty string.
-/

namespace Meguro

open LinkedList

/-- A database that `tcadbopen` has opened: its records in the order of the iterator,
whose keys and values are any bytes, and the index of the next one. -/
structure TCADB where
  records : List HdbRecord
  cursor : Nat

namespace TCADB

/-- `tcadbiternext2`: the next key, as a C string. -/
def iternext2 (tcdb : TCADB) : Option CString × TCADB :=
  match tcdb.records[tcdb.cursor]? with
  | some record => (some (.cut record.key), { tcdb with cursor := tcdb.cursor + 1 })
  | none => (none, tcdb)

/-- `tcadbget2`: the value of the first record that has just this key, as a C string. -/
def get2 (tcdb : TCADB) (kstr : CString) : Option CString :=
  (tcdb.records.find? (·.key = kstr.bytes)).map fun record => .cut record.value

end TCADB

/-- `root_` of a `Dictionary`, and the `value` of every element. -/
structure DictTable (ι : Type*) where
  root : UTHash ι CString
  value : ι → CString

/-- `DictionaryException`. -/
inductive DictionaryException
  | thrown

namespace DictTable

variable {ι : Type*} [DecidableEq ι]

/-- The rest of the body of the loop of `Dictionary::load`, with the element `malloc`
returned and what it answers the table. -/
def addElem (t : DictTable ι) (kbuf vbuf : CString) (elem : ι) (granted : Bool) :
    Option (DictTable ι) :=
  (t.root.hashAddKeyptr hashJen granted kbuf elem).map fun root =>
    ⟨root, Function.update t.value elem vbuf⟩

section Load

variable (malloc : Nat → ι) (grants : Nat → Bool)

/-- A turn of the loop of `Dictionary::load`, which stays where the iterator is at its end:
`malloc` returns one element for each turn, and grants the table memory or not. -/
def loadTurn (s : TCADB × DictTable ι) : Option (TCADB × DictTable ι) :=
  match s.1.iternext2 with
  | (none, _) => some s
  | (some kbuf, tcdb) =>
    let vbuf := (tcdb.get2 kbuf).getD (.ofLiteral "")
    (s.2.addElem kbuf vbuf (malloc s.1.cursor) (grants s.1.cursor)).map (tcdb, ·)

/-- So many turns; `none` if the process does not get through an addition. -/
def loadLoop (s : TCADB × DictTable ι) : Nat → Option (TCADB × DictTable ι)
  | 0 => some s
  | turns + 1 => (loadLoop s turns).bind (loadTurn malloc grants)

/-- A dictionary before the first turn: `root_` is `NULL`, the rest is what memory holds. -/
def cleared (memory : DictTable ι) : DictTable ι :=
  { memory with root := { memory.root with head := none } }

/-- `Dictionary::load`, where `tcadbopen` returns the records of a path it can open. The
loop has a turn for each record and a last one that ends it. -/
def load (tcadbopen : CString → Option (List HdbRecord)) (tcadbiterinit : Bool)
    (filename : CString) (memory : DictTable ι) :
    Option (Except DictionaryException (DictTable ι)) :=
  match tcadbopen (adbPath filename) with
  | none => some (.error .thrown)
  | some records =>
    if tcadbiterinit then
      (loadLoop malloc grants (⟨records, 0⟩, cleared memory) (records.length + 1)).map
        fun s => .ok s.2
    else some (.error .thrown)

end Load

/-- `Dictionary::get`. -/
def get (t : DictTable ι) (key : CString) : Option (Option CString) :=
  (t.root.hashFind hashJen key).map (Option.map t.value)

/-! ## What is loaded -/

/-- The value the loop reads for a key. -/
def valueOf (records : List HdbRecord) (key : CString) : CString :=
  ((⟨records, 0⟩ : TCADB).get2 key).getD (.ofLiteral "")

/-- What the records have for a key: a value if one of their keys begins with it, up to a
NUL or the end. -/
def lookup (records : List HdbRecord) (key : CString) : Option CString :=
  if ∃ record ∈ records, CString.cut record.key = key then some (valueOf records key) else none

/-- After this many turns there is one element for each record read, with the key
of the record and the value read for this key. -/
structure Loaded (malloc : Nat → ι) (records : List HdbRecord) (n : Nat) (t : DictTable ι) :
    Prop where
  wf : UTHash.Wf hashJen t.root ((List.range n).map malloc)
  elem : ∀ i < n, ∃ record, records[i]? = some record ∧
    t.root.key (malloc i) = .cut record.key ∧
    t.value (malloc i) = valueOf records (.cut record.key)

variable {malloc : Nat → ι} {grants : Nat → Bool} {records : List HdbRecord} {t : DictTable ι}
  {n : Nat}

omit [DecidableEq ι] in
/-- The elements of so many turns are different ones. -/
theorem malloc_notMem (hmalloc : Function.Injective malloc) (n : Nat) :
    malloc n ∉ (List.range n).map malloc := by
  rw [List.mem_map]
  rintro ⟨i, hi, heq⟩
  exact (List.mem_range.mp hi).ne (hmalloc heq)

/-- A turn adds the element of the next record. -/
theorem Loaded.addElem (h : Loaded malloc records n t) (hmalloc : Function.Injective malloc)
    (hlength : n + 1 < 2 ^ 32) {record : HdbRecord} (hrecord : records[n]? = some record)
    {granted : Bool} {u : DictTable ι}
    (hu : t.addElem (.cut record.key) (valueOf records (.cut record.key)) (malloc n) granted =
      some u) : Loaded malloc records (n + 1) u := by
  have hne : ∀ i < n, malloc i ≠ malloc n := fun i hi heq => hi.ne (hmalloc heq)
  obtain ⟨root, hroot, rfl⟩ := Option.map_eq_some_iff.mp hu
  obtain ⟨hwf, hkey⟩ := UTHash.hashAddKeyptr_spec h.wf (malloc_notMem hmalloc n)
    (by rwa [List.length_map, List.length_range]) hroot
  refine ⟨?_, fun i hi => ?_⟩
  · rwa [List.range_succ, List.map_append]
  · dsimp only
    rw [hkey]
    rcases Nat.lt_succ_iff_lt_or_eq.mp hi with hi | rfl
    · rw [Function.update_of_ne (hne i hi), Function.update_of_ne (hne i hi)]
      exact h.elem i hi
    · rw [Function.update_self, Function.update_self]
      exact ⟨record, hrecord, rfl, rfl⟩

/-- A turn at a record. -/
theorem loadTurn_of_lt {record : HdbRecord} (hrecord : records[n]? = some record) :
    loadTurn malloc grants (⟨records, n⟩, t) =
      (t.addElem (.cut record.key) (valueOf records (.cut record.key)) (malloc n)
        (grants n)).map (⟨records, n + 1⟩, ·) := by
  unfold loadTurn TCADB.iternext2
  rw [hrecord]
  rfl

/-- The last turn. -/
theorem loadTurn_of_le (h : records.length ≤ n) :
    loadTurn malloc grants (⟨records, n⟩, t) = some (⟨records, n⟩, t) := by
  unfold loadTurn TCADB.iternext2
  rw [List.getElem?_eq_none h]

/-- After so many turns so many records have been read. -/
theorem loadLoop_loaded (hmalloc : Function.Injective malloc) (hcount : records.length < 2 ^ 32)
    (memory : DictTable ι) {turns : Nat} (hturns : turns ≤ records.length)
    {s : TCADB × DictTable ι}
    (h : loadLoop malloc grants (⟨records, 0⟩, cleared memory) turns = some s) :
    ∃ t, s = (⟨records, turns⟩, t) ∧ Loaded malloc records turns t := by
  induction turns generalizing s with
  | zero =>
    cases h
    exact ⟨_, rfl, UTHash.wf_empty rfl, fun i hi => absurd hi (Nat.not_lt_zero i)⟩
  | succ turns ih =>
    obtain ⟨s, hpast, hturn⟩ := Option.bind_eq_some_iff.mp h
    obtain ⟨t, rfl, hloaded⟩ := ih (Nat.le_of_succ_le hturns) hpast
    have hrecord := List.getElem?_eq_getElem (l := records) hturns
    rw [loadTurn_of_lt hrecord] at hturn
    obtain ⟨u, hu, rfl⟩ := Option.map_eq_some_iff.mp hturn
    exact ⟨u, rfl, hloaded.addElem hmalloc (Nat.lt_of_le_of_lt hturns hcount) hrecord hu⟩

/-- The loop that does not get through has stopped at an addition that fails. -/
theorem exists_addFails (hmalloc : Function.Injective malloc) (hcount : records.length < 2 ^ 32)
    (memory : DictTable ι) {turns : Nat} (hturns : turns ≤ records.length)
    (h : loadLoop malloc grants (⟨records, 0⟩, cleared memory) turns = none) :
    ∃ past s record, past < turns ∧
      loadLoop malloc grants (⟨records, 0⟩, cleared memory) past = some s ∧
      records[past]? = some record ∧
      s.2.root.AddFails hashJen (grants past) (.cut record.key) := by
  induction turns with
  | zero => cases h
  | succ turns ih =>
    cases hpast : loadLoop malloc grants (⟨records, 0⟩, cleared memory) turns with
    | none =>
      obtain ⟨past, s, record, hlt, hs⟩ := ih (Nat.le_of_succ_le hturns) hpast
      exact ⟨past, s, record, Nat.lt_succ_of_lt hlt, hs⟩
    | some s =>
      obtain ⟨t, rfl, hloaded⟩ :=
        loadLoop_loaded hmalloc hcount memory (Nat.le_of_succ_le hturns) hpast
      have hrecord := List.getElem?_eq_getElem (l := records) hturns
      unfold loadLoop at h
      rw [hpast] at h
      change loadTurn malloc grants (⟨records, turns⟩, t) = none at h
      rw [loadTurn_of_lt hrecord] at h
      refine ⟨turns, _, _, Nat.lt_succ_self turns, hpast, hrecord, ?_⟩
      apply (UTHash.hashAddKeyptr_eq_none_iff hloaded.wf (malloc_notMem hmalloc turns) ?_).mp
      · exact Option.map_eq_none_iff.mp (Option.map_eq_none_iff.mp h)
      · rw [List.length_map, List.length_range]
        exact Nat.lt_of_le_of_lt hturns hcount

omit [DecidableEq ι] in
/-- The table of a file answers as its records do. -/
theorem Loaded.get (h : Loaded malloc records records.length t) (key : CString) :
    t.get key = some (lookup records key) := by
  obtain ⟨out, hout, hnone, hsome⟩ := UTHash.hashFind_wf h.wf key
  unfold DictTable.get lookup
  rw [hout]
  cases out with
  | some a =>
    obtain ⟨ha, hkey⟩ := hsome a rfl
    obtain ⟨i, hi, rfl⟩ := List.mem_map.mp ha
    obtain ⟨record, hrecord, hcut, hvalue⟩ := h.elem i (List.mem_range.mp hi)
    rw [hcut] at hkey
    rw [if_pos ⟨record, List.mem_of_getElem? hrecord, hkey⟩, ← hkey, ← hvalue]
    rfl
  | none =>
    rw [if_neg]
    · rfl
    · rintro ⟨record, hmem, heq⟩
      obtain ⟨i, hi, hget⟩ := List.getElem_of_mem hmem
      obtain ⟨record', hrecord', hcut, -⟩ := h.elem i hi
      have hsame : record' = record := by
        rw [List.getElem?_eq_getElem hi, hget] at hrecord'
        exact (Option.some.inj hrecord').symm
      refine hnone.mp rfl (malloc i) (List.mem_map_of_mem (List.mem_range.mpr hi)) ?_
      rw [hcut, hsame, heq]

/-! ## The callback -/

/-- What `Dictionary::get` answers the callback. -/
def answers (t : DictTable ι) : Dictionary := fun key => (t.get key).join

/-- The dictionary of a file, from the load to the destructor. -/
structure AnswersAs (malloc : Nat → ι) (junk : ι → UTHash.Junk CString ι)
    (records : List HdbRecord) (t : DictTable ι) : Prop where
  /-- Every search ends with what the records have for its key. -/
  get : ∀ key, t.get key = some (lookup records key)
  /-- A script gets for an argument that converts to the key the engine's value of the
  string made of this, which is none where the engine refuses it, or null. -/
  call : ∀ {V S : Type} (engine : Engine V S) (handle : JSHandle) {arg : V} (argv : List V)
    (locals : Locals) (s : NativeState) {key : CString},
    handle.dictionary = some t.answers → engine.toBytes arg = some key →
      dictionary engine handle (arg :: argv) locals s =
        .returned true (((lookup records key).map fun value =>
          engine.stringToJsval (engine.newString value)).getD engine.null) s
  /-- The destructor frees the element of every record once. -/
  destroy : UTHash.destroy junk t.root.hashCount.toNat t.root =
    some ((List.range records.length).map malloc)

omit [DecidableEq ι] in
/-- The callback returns what the search found. -/
theorem dictionary_of_get {V S : Type*} (engine : Engine V S) {handle : JSHandle} {arg : V}
    {argv : List V} {locals : Locals} {s : NativeState} {key : CString} {found : Option CString}
    (hhandle : handle.dictionary = some t.answers) (harg : engine.toBytes arg = some key)
    (hget : t.get key = some found) :
    dictionary engine handle (arg :: argv) locals s = .returned true
      ((found.map fun value => engine.stringToJsval (engine.newString value)).getD engine.null)
      s := by
  have hlocals : (engine.convertArguments (arg :: argv) [.key] locals).locals .key =
      .valid key := by
    rw [(Engine.convertArguments_cons_of_some harg argv .key [] locals).2]
    unfold Engine.convertArguments
    exact Function.update_self Local.key (Pointer.valid key) locals
  have hanswer : t.answers key = found := by
    unfold answers
    rw [hget]
    rfl
  unfold dictionary
  rw [hhandle, hlocals]
  dsimp only
  rw [hanswer]
  cases found <;> rfl

/-- The table of a file answers as the file until it is destroyed. -/
theorem Loaded.answersAs (h : Loaded malloc records records.length t)
    (junk : ι → UTHash.Junk CString ι) : AnswersAs malloc junk records t := by
  refine ⟨h.get, fun engine handle arg argv locals s key hhandle harg => ?_, ?_⟩
  · exact dictionary_of_get engine hhandle harg (h.get key)
  · have hdestroy := UTHash.destroy_wf junk h.wf
    rwa [← UTHash.hashCount_wf h.wf] at hdestroy

/-- A file that can be opened is loaded, however often it lists a key, and then answers
as its records do until it is destroyed; only an addition that does not get its memory,
or would expand 2^31 buckets, keeps the load from ending. -/
theorem answersAs_of_load (junk : ι → UTHash.Junk CString ι) (memory : DictTable ι)
    (grants : Nat → Bool) {tcadbopen : CString → Option (List HdbRecord)} {filename : CString}
    (hopen : tcadbopen (adbPath filename) = some records) (hcount : records.length < 2 ^ 32)
    (hmalloc : Function.Injective malloc) :
    (∃ t, load malloc grants tcadbopen true filename memory = some (.ok t) ∧
      AnswersAs malloc junk records t) ∨
    load malloc grants tcadbopen true filename memory = none ∧
      ∃ turns s record, loadLoop malloc grants (⟨records, 0⟩, cleared memory) turns = some s ∧
        records[turns]? = some record ∧
        s.2.root.AddFails hashJen (grants turns) (.cut record.key) := by
  unfold load
  rw [hopen]
  dsimp only
  rw [if_pos rfl]
  cases hloop : loadLoop malloc grants (⟨records, 0⟩, cleared memory) records.length with
  | some s =>
    obtain ⟨t, rfl, hloaded⟩ := loadLoop_loaded hmalloc hcount memory (Nat.le_refl _) hloop
    refine .inl ⟨t, ?_, hloaded.answersAs junk⟩
    unfold loadLoop
    rw [hloop]
    change (loadTurn malloc grants (⟨records, records.length⟩, t)).map _ = _
    rw [loadTurn_of_le (Nat.le_refl _)]
    rfl
  | none =>
    obtain ⟨turns, s, record, -, hs, hrecord, hfail⟩ :=
      exists_addFails hmalloc hcount memory (Nat.le_refl _) hloop
    refine .inr ⟨?_, turns, s, record, hs, hrecord, hfail⟩
    unfold loadLoop
    rw [hloop]
    rfl

/-- A file that lists a key twice, and a key that goes on behind a NUL. -/
def repeatedKeyFile : List HdbRecord :=
  [⟨literal "k", literal "1"⟩, ⟨literal "j" ++ 0 :: literal "x", literal "3"⟩,
    ⟨literal "k", literal "2"⟩]

/-- What opens is this file, under every name. -/
def repeatedKeyOpen (_ : CString) : Option (List HdbRecord) := some repeatedKeyFile

/-- The memory of a dictionary that is not loaded yet. -/
def unloaded : DictTable Nat where
  root :=
    ⟨some 7, hashMakeTable 0, fun _ => ⟨some 1, none⟩, fun _ => ⟨none, some 2⟩,
      fun _ => .ofLiteral "", fun _ => 0⟩
  value _ := .ofLiteral ""

theorem answersAs_repeatedKeyFile :
    ∃ t, load id (fun _ => true) repeatedKeyOpen true (.ofLiteral "words.tcb") unloaded =
        some (.ok t) ∧
      AnswersAs id (fun _ => ⟨⟨some 3, none⟩, ⟨none, none⟩, .ofLiteral "", 5⟩)
        repeatedKeyFile t ∧ lookup repeatedKeyFile (.ofLiteral "j") = some (.ofLiteral "") := by
  have hopen : repeatedKeyOpen (adbPath (.ofLiteral "words.tcb")) = some repeatedKeyFile := rfl
  have hloads : (load id (fun _ => true) repeatedKeyOpen true (.ofLiteral "words.tcb")
      unloaded).isSome = true := by decide
  have hload := answersAs_of_load (fun _ => ⟨⟨some 3, none⟩, ⟨none, none⟩, .ofLiteral "", 5⟩)
    unloaded (fun _ => true) hopen (by decide) Function.injective_id
  rcases hload with ⟨t, ht, hanswers⟩ | ⟨hnone, -⟩
  · exact ⟨t, ht, hanswers, by decide⟩
  · rw [hnone] at hloads
    cases hloads

end DictTable

end Meguro
