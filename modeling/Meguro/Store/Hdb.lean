import Meguro.Core.LastWrite
import Meguro.Text.CString

/-!
# Hash databases

What the program relies on of a Tokyo Cabinet hash database: a put inserts or
replaces the record of its key in one atomic step and needs an open handle, a
get finds the record of a key, and an iterator lists every record key once, in
an order of its own.
-/

namespace Meguro

/-- The records of a database file: one value for each key. -/
abbrev Records (V : Type*) := Finmap fun _ : CString => V

/-- The life of a handle, from `tchdbnew` to `tchdbclose`. -/
inductive HandleStatus
  | unopened
  | opened
  | closed
  deriving DecidableEq, Repr

/-- A `TCHDB` handle and the file behind it. -/
structure Hdb (V : Type*) where
  status : HandleStatus
  records : Records V

/-- The flags given to `tchdbopen` for an output file: `HDBOWRITER` alone, or
together with `HDBOCREAT | HDBOTRUNC`. -/
inductive OpenMode
  | writer
  | writerCreateTruncate
  deriving DecidableEq, Repr

/-- The flags both output files are opened with. -/
def openMode (incremental : Bool) : OpenMode :=
  if incremental then .writer else .writerCreateTruncate

/-- The records an open leaves; without `HDBOCREAT` a missing file is an error. -/
def tchdbopen {V : Type*} (file : Option (Records V)) : OpenMode → Option (Records V)
  | .writer => file
  | .writerCreateTruncate => some ∅

namespace Hdb

variable {V : Type*}

/-- A successful `tchdbput`. -/
def put (db : Hdb V) (key : CString) (value : V) : Hdb V :=
  { db with records := db.records.insert key value }

end Hdb

/-- An order in which `tchdbiternext2` may list the keys of a file. -/
def Lists {V : Type*} (order : List CString) (records : Records V) : Prop :=
  order.Nodup ∧ ∀ key, key ∈ order ↔ key ∈ records

/-- Records written once each may be listed in the order of their writes. -/
theorem lists_writes {V : Type*} {ws : List (CString × V)} (h : (ws.map Prod.fst).Nodup) :
    Lists (ws.map Prod.fst) (LastWrite.writes ∅ ws) :=
  ⟨h, fun _ => LastWrite.mem_writes_empty.symm⟩

end Meguro
