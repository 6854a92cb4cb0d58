import Mvcc.Clock.Error
import Mvcc.Clock.Timestamp
import Mvcc.Data.Bytes
import Mvcc.Data.Crc32c

/-!
# The durable high-water mark

The mark is the highest timestamp that may have been handed out. It is kept in memory, where it
never moves back, or in a file of twelve bytes that checks itself.
-/

namespace Mvcc

structure MemoryMark where
  value : Timestamp
  failing : Bool
  stores : Nat
  deriving DecidableEq

namespace MemoryMark

def startingAt (value : Timestamp) : MemoryMark := ⟨value, false, 0⟩

def store (mark : MemoryMark) (value : Timestamp) : Except TimestampError MemoryMark :=
  if mark.failing then .error (.persistence .storeDisabled)
  else .ok { mark with value := max mark.value value, stores := mark.stores + 1 }

def setFailing (failing : Bool) (mark : MemoryMark) : MemoryMark := { mark with failing := failing }

end MemoryMark

inductive FileContent where
  | absent
  | bytes (raw : Bytes)
  | directory
  | noDirectory
  /-- A component of the path is a file. -/
  | notDirectory
  deriving DecidableEq

structure MarkFile where
  path : String
  content : FileContent
  deriving DecidableEq

namespace MarkFile

def length : Nat := 12

def sumBytes (value : Bytes) : Bytes := BigEndian.encode 4 (Crc32c.checksum value).toNat

/-- The eight bytes of the mark, then their checksum. -/
def encode (value : Timestamp) : Bytes :=
  BigEndian.ofWord value ++ sumBytes (BigEndian.ofWord value)

def decode (path : String) (raw : Bytes) : Except MarkFault Timestamp :=
  if raw.length ≠ length then .error (.length raw.length path)
  else if sumBytes (raw.take 8) ≠ raw.drop 8 then .error (.checksum path)
  else .ok (BigEndian.toWord (raw.take 8))

/-- The stored mark. A file that was never written stands for zero. -/
def load (file : MarkFile) : Except TimestampError Timestamp :=
  match file.content with
  | .absent | .noDirectory => .ok 0
  | .directory => .error (.persistence .isDirectory)
  | .notDirectory => .error (.persistence .notDirectory)
  | .bytes raw => (decode file.path raw).mapError .corrupt

def overwrite (raw : Bytes) (file : MarkFile) : Except IoFault MarkFile :=
  match file.content with
  | .absent | .bytes _ => .ok { file with content := .bytes raw }
  | .directory => .error .isDirectory
  | .noDirectory => .error .noSuchFile
  | .notDirectory => .error .notDirectory

def store (file : MarkFile) (value : Timestamp) : Except TimestampError MarkFile :=
  (file.overwrite (encode value)).mapError .persistence

def read? (file : MarkFile) : Option Bytes :=
  match file.content with
  | .bytes raw => some raw
  | _ => none

end MarkFile

inductive Mark where
  | memory (cell : MemoryMark)
  | file (kept : MarkFile)
  deriving DecidableEq

namespace Mark

def load : Mark → Except TimestampError Timestamp
  | .memory cell => .ok cell.value
  | .file kept => kept.load

def store : Mark → Timestamp → Except TimestampError Mark
  | .memory cell, value => (cell.store value).map .memory
  | .file kept, value => (kept.store value).map .file

def file? : Mark → Option MarkFile
  | .memory _ => none
  | .file kept => some kept

def overwrite (raw : Bytes) : Mark → Except IoFault Mark
  | .memory cell => .ok (.memory cell)
  | .file kept => (kept.overwrite raw).map .file

def memoryOr (spare : MemoryMark) : Mark → MemoryMark
  | .memory cell => cell
  | .file _ => spare

def alterMemory (change : MemoryMark → MemoryMark) (spare : MemoryMark) :
    Mark → Mark × MemoryMark
  | .memory cell => (.memory (change cell), spare)
  | .file kept => (.file kept, change spare)

end Mark

end Mvcc
