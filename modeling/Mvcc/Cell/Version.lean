import Mvcc.Cell.Partition
import Mvcc.Cell.Stamp

/-!
# Versions of a row

Each transaction's write of a row is a stored row of its own, keyed by the length of the row key,
the row key and the writer. All versions of a row are therefore next to each other, oldest writer
first, and no row's versions lie between those of another. One column holds the value or a
tombstone, another the writer's stamp once it is known.
-/

namespace Mvcc

/-- One transaction's write of a row. -/
structure Version where
  writer : TxnId
  /-- The written value; none for a delete. -/
  value : Option Bytes
  stamp : Option Stamp
  deriving DecidableEq, Repr

namespace Version

def dataColumn : Bytes := [0x64]

def stampColumn : Bytes := [0x74]

def stem (row : Bytes) : Bytes := BigEndian.encode 4 row.length ++ row

def key (row : Bytes) (writer : TxnId) : Bytes := stem row ++ BigEndian.ofWord writer

/-- A tag byte, then the value that was written, if any. -/
def encodeValue : Option Bytes → Bytes
  | some value => 1 :: value
  | none => [0]

/-- Read what `encodeValue` wrote. Bytes after a tombstone's tag do not count. -/
def decodeValue : Bytes → Except StorageError (Option Bytes)
  | [] => .error (.corrupt "bad payload tag")
  | tag :: value =>
    if tag = 1 then .ok (some value)
    else if tag = 0 then .ok none
    else .error (.corrupt "bad payload tag")

def decodeStamp (raw : Bytes) : Except StorageError Stamp :=
  (Stamp.decode raw).mapError fun fault => .corrupt fault.message

/-- The version in a stored row; a row with no value column holds none. -/
def ofColumns (writer : TxnId) (cells : Columns) : Except StorageError (Option Version) := do
  let value ← (cells.get? dataColumn).mapM decodeValue
  let stamp ← (cells.get? stampColumn).mapM decodeStamp
  pure (value.map fun value => ⟨writer, value, stamp⟩)

/-- The version in a stored row whose key starts with `stem`. A longer row key can start so too;
only keys that end right after the writer belong to this row. -/
def ofEntry (stem : Bytes) (entry : Bytes × Columns) : Except StorageError (Option Version) :=
  if entry.1.length = stem.length + 8 then
    ofColumns (BigEndian.toWord (entry.1.drop stem.length)) entry.2
  else pure none

end Version

namespace Partition

def writeVersion (p : Partition) (row : Bytes) (writer : TxnId) (value : Option Bytes) :
    Except StorageError Partition :=
  p.put (Version.key row writer) Version.dataColumn (Version.encodeValue value)

def versions (p : Partition) (row : Bytes) : Except StorageError (List Version) := do
  let entries ← p.scan (Version.stem row)
  let found ← entries.mapM (Version.ofEntry (Version.stem row))
  pure (found.filterMap id).reverse

def writers (p : Partition) (row : Bytes) : Except StorageError (List TxnId) := do
  pure ((← p.versions row).map (·.writer))

end Partition

/-- What a caller that stamps or purges a version does next. -/
inductive VersionTask where
  /-- Read the value, to see that the version exists. -/
  | probe
  | mark
  /-- Read the value again, in case of a concurrent purge. -/
  | reprobe
  /-- Remove the stamp of a purged version. -/
  | unmark
  | dropValue
  | dropStamp
  deriving DecidableEq, Repr

namespace VersionTask

/-- One partition operation on the version at `key`, and what is left to do after it. -/
def step (key : Bytes) (stamp : Stamp) (p : Partition) :
    VersionTask → Except StorageError (Partition × Option VersionTask)
  | .probe => do
    let present ← p.get key Version.dataColumn
    pure (p, if present.isSome then some .mark else none)
  | .mark => do pure (← p.put key Version.stampColumn stamp.encode, some .reprobe)
  | .reprobe => do
    let present ← p.get key Version.dataColumn
    pure (p, if present.isSome then none else some .unmark)
  | .unmark => do pure (← p.delete key Version.stampColumn, none)
  | .dropValue => do pure (← p.delete key Version.dataColumn, some .dropStamp)
  | .dropStamp => do pure (← p.delete key Version.stampColumn, none)

def remaining : Option VersionTask → Nat
  | none => 0
  | some .probe => 4
  | some .mark => 3
  | some .reprobe => 2
  | some .unmark => 1
  | some .dropValue => 2
  | some .dropStamp => 1

def runFor (key : Bytes) (stamp : Stamp) :
    Nat → Option VersionTask → Partition → Except StorageError Partition
  | 0, _, p => .ok p
  | _ + 1, none, p => .ok p
  | fuel + 1, some task, p => do
    let (p, task) ← task.step key stamp p
    runFor key stamp fuel task p

def run (key : Bytes) (stamp : Stamp) (task : Option VersionTask) (p : Partition) :
    Except StorageError Partition :=
  runFor key stamp (remaining task) task p

/-- Two callers take turns, one operation each, until both are done or `fuel` turns are taken. -/
def alternate (key : Bytes) (stamp : Stamp) :
    Nat → Option VersionTask → Option VersionTask → Partition → Except StorageError Partition
  | 0, _, _, p => .ok p
  | _ + 1, none, other, p => run key stamp other p
  | fuel + 1, some task, other, p => do
    let (p, task) ← task.step key stamp p
    alternate key stamp fuel other task p

end VersionTask

namespace Partition

/-- Stamp a version, unless it is absent or is purged between two operations. -/
def stampVersion (p : Partition) (row : Bytes) (writer : TxnId) (stamp : Stamp) :
    Except StorageError Partition :=
  VersionTask.run (Version.key row writer) stamp (some .probe) p

def purgeVersion (p : Partition) (row : Bytes) (writer : TxnId) : Except StorageError Partition :=
  VersionTask.run (Version.key row writer) .rolledBack (some .dropValue) p

/-- Stamp and purge one version concurrently. Where the partition yields, the two calls alternate
operation by operation; otherwise one completes before the other starts. -/
def raceVersion (p : Partition) (row : Bytes) (writer : TxnId) (stamp : Stamp)
    (stampFirst : Bool) : Except StorageError Partition :=
  let key := Version.key row writer
  let first : VersionTask := if stampFirst then .probe else .dropValue
  let second : VersionTask := if stampFirst then .dropValue else .probe
  if p.yielding then VersionTask.alternate key stamp 6 (some first) (some second) p
  else do VersionTask.run key stamp (some second) (← VersionTask.run key stamp (some first) p)

end Partition

end Mvcc
