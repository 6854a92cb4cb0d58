import Mvcc.Clock.Oracle

/-!
# Standalone oracles

A stand holds a mark on which an oracle can be opened repeatedly.
-/

namespace Mvcc

inductive OracleStand where
  | idle (mark : Mark) (spare : MemoryMark)
  | running (oracle : Oracle) (spare : MemoryMark)

namespace OracleStand

def mark : OracleStand → Mark
  | .idle mark _ => mark
  | .running oracle _ => oracle.mark

def withMark (mark : Mark) : OracleStand → OracleStand
  | .idle _ spare => .idle mark spare
  | .running oracle spare => .running { oracle with mark := mark } spare

/-- The mark in memory to use where the stand keeps its mark in a file. -/
def spare : OracleStand → MemoryMark
  | .idle _ spare | .running _ spare => spare

def withSpare (spare : MemoryMark) : OracleStand → OracleStand
  | .idle mark _ => .idle mark spare
  | .running oracle _ => .running oracle spare

def oracle? : OracleStand → Option Oracle
  | .idle _ _ => none
  | .running oracle _ => some oracle

def start (stand : OracleStand) (blockSize : UInt64) : Except TimestampError Oracle × OracleStand :=
  match Oracle.start stand.mark blockSize with
  | .ok oracle => (.ok oracle, .running oracle stand.spare)
  | .error e => (.error e, .idle stand.mark stand.spare)

def drawAll : Nat → Oracle → List (Except TimestampError Timestamp) × Oracle
  | 0, oracle => ([], oracle)
  | count + 1, oracle =>
    let (drawn, oracle) := match Oracle.next oracle with
      | .ok time oracle => (Except.ok time, oracle)
      | .error e oracle => (Except.error e, oracle)
    let (more, oracle) := drawAll count oracle
    (drawn :: more, oracle)

def store (stand : OracleStand) (value : Timestamp) : Except TimestampError OracleStand :=
  (stand.mark.store value).map stand.withMark

def overwrite (stand : OracleStand) (raw : Bytes) : Except TimestampError OracleStand :=
  ((stand.mark.overwrite raw).map stand.withMark).mapError .io

def alterMemory (change : MemoryMark → MemoryMark) (stand : OracleStand) : OracleStand :=
  let (mark, spare) := stand.mark.alterMemory change stand.spare
  (stand.withMark mark).withSpare spare

end OracleStand

end Mvcc
