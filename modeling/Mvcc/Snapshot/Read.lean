import Mvcc.Cell.Version
import Mvcc.Txn.Ancestry

/-!
# Snapshot reads

A read walks over the versions of a row, newest writer first, and returns the first visible one. A
stamped version is judged by its stamp. The writer of any other is looked up, and reported for
resolution if it has finished.
-/

namespace Mvcc

namespace View

/-- Whether the reader sees a version that is stamped as committed at `time`. -/
def seesStamped (reader : View) (writer : TxnId) (time : Timestamp) : Bool :=
  writer = reader.id || reader.descendsFrom writer ||
    match reader.record.isolationLevel with
    | .readUncommitted | .readCommitted => true
    | .snapshot => time ≤ reader.beginTime

end View

/-- What a read answered, and which writers it found finished without a stamp. -/
structure ReadTrace where
  finished : List TxnId
  answer : Except TxnError (Option Bytes)

namespace ReadTrace

def answered (answer : Except TxnError (Option Bytes)) : ReadTrace := ⟨[], answer⟩

def noting (trace : ReadTrace) (writer : View) (id : TxnId) : ReadTrace :=
  if writer.outcome.isSome then { trace with finished := id :: trace.finished } else trace

end ReadTrace

section

variable {σ : Type} [Supplier σ]

def firstVisible (reader : View) : List Version → σ → ReadTrace × σ
  | [], s => (.answered (.ok none), s)
  | version :: older, s =>
    match version.stamp with
    | some .rolledBack => firstVisible reader older s
    | some (.committed time) =>
      if reader.seesStamped version.writer time then (.answered (.ok version.value), s)
      else firstVisible reader older s
    | none =>
      match View.resolve version.writer s with
      | .error e s => (.answered (.error e), s)
      | .ok writer s =>
        let (trace, s) :=
          if reader.canSee writer then (.answered (.ok version.value), s)
          else firstVisible reader older s
        (trace.noting writer version.writer, s)

/-- The value of a row visible to the reader, none if it is absent or deleted. -/
def readRow (region : Partition) (reader : View) (row : Bytes) (s : σ) : ReadTrace × σ :=
  match region.versions row with
  | .ok versions => firstVisible reader versions s
  | .error e => (.answered (.error (.ofStorage e)), s)

end

end Mvcc
