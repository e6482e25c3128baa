import Meguro.Core.Generator
import Meguro.Mapper.Begin

/-!
# Tokyo Cabinet inputs

`pick_an_iterator` guesses the kind of an input from its extension. The iterator
for B+ tree databases takes its keys from a cursor that moves record by record
and its values from a lookup by key, which finds the first record of the key. It
hands out the records as they are exactly when equal keys have equal values.
-/

namespace Meguro

open Generator

/-! ## The choice of the iterator -/

/-- The classes of iterators. -/
inductive IteratorKind
  | line
  | gzip
  | tokyoCabinet
  | tokyoCabinetHash
  deriving DecidableEq, Repr

/-- `pick_an_iterator`. -/
def pickAnIterator (filename : CString) : IteratorKind :=
  match strrchr 46 filename.bytes with
  | some ext =>
    if SameIgnoringCase ext (literal ".tch") then .tokyoCabinetHash
    else if SameIgnoringCase ext (literal ".tcb") ∨ SameIgnoringCase ext (literal ".tcf") ∨
        SameIgnoringCase ext (literal ".tct") then .tokyoCabinet
    else if SameIgnoringCase ext (literal ".gz") ∨ SameIgnoringCase ext (literal ".gzip") then .gzip
    else .line
  | none => .line

/-- A file whose name ends in `.tcb`, in any case, is read as a B+ tree. -/
theorem pickAnIterator_tcb {filename : CString} {stem ext : List UInt8}
    (hname : filename.bytes = stem ++ 46 :: ext) (hext : SameIgnoringCase ext (literal "tcb")) :
    pickAnIterator filename = .tokyoCabinet := by
  have hdot : 46 ∉ ext := by
    intro hmem
    have hlower : tolower 46 ∈ ext.map tolower := List.mem_map_of_mem hmem
    rw [hext] at hlower
    exact absurd hlower (by decide)
  have hmap : (46 :: ext).map tolower = literal ".tcb" := by
    rw [List.map_cons, hext]
    decide
  rw [pickAnIterator, hname, strrchr_append hdot]
  simp only [SameIgnoringCase, hmap]
  decide

/-! ## Iterating over a B+ tree -/

/-- An open B+ tree database: its records in order, where a key may occur several
times, and the index of the record under the cursor. -/
structure Adb where
  records : List KeyValuePair
  cursor : Nat

/-- A database whose iterator has been initialized. -/
def Adb.opened (records : List KeyValuePair) : Adb := ⟨records, 0⟩

/-- `tcadbiternext2`: the key under the cursor, which moves on by one record. -/
def tcadbiternext2 (db : Adb) : Option CString × Adb :=
  match db.records[db.cursor]? with
  | some record => (some record.key, { db with cursor := db.cursor + 1 })
  | none => (none, db)

/-- `tcadbget2`: the value of the first record with this key. -/
def tcadbget2 (db : Adb) (key : CString) : Option CString :=
  (db.records.find? (·.key = key)).map KeyValuePair.value

/-- `TokyoCabinetIterator::next`; it stops with an `IteratorCompleteException`. -/
def TokyoCabinetIterator.next (db : Adb) : Produce Adb KeyValuePair :=
  match tcadbiternext2 db with
  | (some kbuf, db) =>
    let vbuf := (tcadbget2 db kbuf).getD (.ofLiteral "")
    .item ⟨kbuf, vbuf⟩ db
  | (none, _) => .stop

/-- The pair the iterator makes of a record. -/
def readBack (records : List KeyValuePair) (record : KeyValuePair) : KeyValuePair :=
  ⟨record.key, (tcadbget2 (.opened records) record.key).getD (.ofLiteral "")⟩

/-- Equal keys have equal values. -/
def KeysFixValues (records : List KeyValuePair) : Prop :=
  ∀ r ∈ records, ∀ r' ∈ records, r.key = r'.key → r.value = r'.value

instance (records : List KeyValuePair) : Decidable (KeysFixValues records) :=
  inferInstanceAs (Decidable (∀ r ∈ records, ∀ r' ∈ records, r.key = r'.key → r.value = r'.value))

theorem yields_from (records : List KeyValuePair) (left cursor : Nat)
    (h : cursor + left = records.length) :
    Yields TokyoCabinetIterator.next ⟨records, cursor⟩
      ((records.drop cursor).map (readBack records)) := by
  induction left generalizing cursor with
  | zero =>
    have hnone : records[cursor]? = none := List.getElem?_eq_none (by omega)
    rw [List.drop_of_length_le (by omega)]
    exact .stop (by simp only [TokyoCabinetIterator.next, tcadbiternext2, hnone])
  | succ left ih =>
    have hlt : cursor < records.length := by omega
    have hsome : records[cursor]? = some records[cursor] := List.getElem?_eq_getElem hlt
    rw [List.drop_eq_getElem_cons hlt, List.map_cons]
    refine .item (t := ⟨records, cursor + 1⟩) ?_ (ih (cursor + 1) (by omega))
    simp only [TokyoCabinetIterator.next, tcadbiternext2, hsome]
    rfl

/-- The iterator ends after one pair for each record, each with the value of the
first record of its key. -/
theorem yields_readBack (records : List KeyValuePair) :
    Yields TokyoCabinetIterator.next (.opened records) (records.map (readBack records)) :=
  yields_from records records.length 0 (Nat.zero_add _)

/-- Where equal keys have equal values, every record is read back as it is. -/
theorem readBack_of_keysFixValues {records : List KeyValuePair} (h : KeysFixValues records)
    {record : KeyValuePair} (hrecord : record ∈ records) : readBack records record = record := by
  obtain ⟨first, hfirst⟩ : ∃ first, records.find? (·.key = record.key) = some first := by
    rw [← Option.isSome_iff_exists, List.find?_isSome]
    exact ⟨record, hrecord, by simp⟩
  have hkey : first.key = record.key := by simpa using List.find?_some hfirst
  have hvalue := h first (List.mem_of_find?_eq_some hfirst) record hrecord hkey
  simp only [readBack, tcadbget2, Adb.opened, hfirst, Option.map_some, Option.getD_some, hvalue]

/-- The iterator hands out exactly the records, in order, exactly when equal keys
have equal values. -/
theorem yields_records_iff_keysFixValues (records : List KeyValuePair) :
    Yields TokyoCabinetIterator.next (.opened records) records ↔ KeysFixValues records := by
  constructor
  · intro h r hr r' hr' hkey
    have hmap : records.map (readBack records) = records.map id :=
      ((yields_readBack records).unique h).trans (List.map_id _).symm
    have hself := List.map_inj_left.mp hmap
    calc r.value = (readBack records r).value := by rw [hself r hr]; rfl
      _ = (readBack records r').value := by rw [readBack, readBack, hkey]
      _ = r'.value := by rw [hself r' hr']; rfl
  · intro h
    have hself : records.map (readBack records) = records.map id :=
      List.map_congr_left fun record hrecord => readBack_of_keysFixValues h hrecord
    have hyields := yields_readBack records
    rwa [hself, List.map_id] at hyields

/-- Two records of one key: the second is handed out with the value of the first. -/
theorem not_yields_records_duplicateKey :
    ¬ ∀ records : List KeyValuePair,
      Yields TokyoCabinetIterator.next (.opened records) records := by
  intro h
  have hpairs := (yields_readBack [pairOf "k" "1", pairOf "k" "2"]).unique
    (h [pairOf "k" "1", pairOf "k" "2"])
  exact absurd hpairs (by decide)

end Meguro
