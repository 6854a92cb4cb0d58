import Mvcc.Data.Bytes
import Mvcc.Data.SortedMap

/-!
# Partitions

A partition holds rows of columns, both in byte order. Every operation reads or writes at one
instant, and fails while the partition is not serving. A row exists as long as it has a cell.
-/

namespace Mvcc

inductive StorageError where
  | unavailable (partition : String)
  | corrupt (detail : String)
  | other (text : String)
  deriving DecidableEq, Repr

def StorageError.message : StorageError → String
  | .unavailable partition => s!"partition {partition} is not serving requests"
  | .corrupt detail => s!"corrupt data: {detail}"
  | .other text => text

def StorageError.kind : StorageError → String
  | .unavailable _ => "Unavailable"
  | .corrupt _ => "Corrupt"
  | .other _ => "Other"

abbrev Columns := SortedMap Bytes Bytes

/-- A named store of rows. -/
structure Partition where
  name : String
  rows : SortedMap Bytes Columns
  unavailable : Bool
  /-- Whether the partition yields before every operation. -/
  yielding : Bool
  puts : Nat

namespace Partition

def new (name : String) : Partition := ⟨name, .empty, false, false, 0⟩

def serve {α : Type} (p : Partition) (answer : α) : Except StorageError α :=
  if p.unavailable then .error (.unavailable p.name) else .ok answer

def columns (p : Partition) (row : Bytes) : Columns := (p.rows.get? row).getD .empty

def cell? (p : Partition) (row column : Bytes) : Option Bytes := (p.columns row).get? column

def withCell (p : Partition) (row column value : Bytes) : Partition :=
  { p with
    rows := p.rows.insert row ((p.columns row).insert column value)
    puts := p.puts + 1 }

/-- The rows with a new set of cells for one of them; a row without cells is no row. -/
def replaceRow (rows : SortedMap Bytes Columns) (row : Bytes) (cells : Columns) :
    SortedMap Bytes Columns :=
  if cells.isEmpty then rows.erase row else rows.insert row cells

def withoutCell (p : Partition) (row column : Bytes) : Partition :=
  { p with rows := replaceRow p.rows row ((p.columns row).erase column) }

/-- The rows whose key starts with `stem`, in key order. The listing begins at `stem` itself and
ends before the first key that does not start with it. -/
def rowsFrom (p : Partition) (stem : Bytes) : List (Bytes × Columns) :=
  (p.rows.entries.dropWhile (·.1 < stem)).takeWhile (stem.isPrefixOf ·.1)

def get (p : Partition) (row column : Bytes) : Except StorageError (Option Bytes) :=
  p.serve (p.cell? row column)

def getRow (p : Partition) (row : Bytes) : Except StorageError Columns :=
  p.serve (p.columns row)

def put (p : Partition) (row column value : Bytes) : Except StorageError Partition :=
  p.serve (p.withCell row column value)

def delete (p : Partition) (row column : Bytes) : Except StorageError Partition :=
  p.serve (p.withoutCell row column)

def scan (p : Partition) (stem : Bytes) : Except StorageError (List (Bytes × Columns)) :=
  p.serve (p.rowsFrom stem)

end Partition

end Mvcc
