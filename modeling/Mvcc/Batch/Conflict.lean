import Mvcc.Batch.Mutation
import Mvcc.Cell.Version
import Mvcc.Txn.Ancestry

/-!
# Write conflicts

A transaction is compared with every earlier writer of a row, newest first. The first genuine
conflict decides; without one, the first additive conflict does. A stamp settles most comparisons
without a look-up.
-/

namespace Mvcc

/-- The writers of a row, newest first, with their stamps. -/
abbrev WriteHistory := List (TxnId × Option Stamp)

def Partition.history (p : Partition) (row : Bytes) : Except StorageError WriteHistory :=
  (p.versions row).map (·.map fun version => (version.writer, version.stamp))

namespace View

/-- Whether an earlier write cannot conflict, going by its writer and stamp alone. -/
def passesOver (v : View) (writer : TxnId) (stamp : Option Stamp) : Bool :=
  writer = v.id ||
    match stamp with
    | some .rolledBack => true
    | some (.committed time) => time ≤ v.beginTime
    | none => false

end View

section

variable {σ : Type} [Supplier σ]

/-- Compare `txn` with earlier writers; `additive` is the additive conflict found so far. -/
def detectAfter (txn : View) (additive : Option TxnId) :
    WriteHistory → TxnM σ (Verdict × Option TxnId)
  | [] =>
    match additive with
    | some writer => pure (.additiveWriteConflict, some writer)
    | none => pure (.success, none)
  | (writer, stamp) :: older =>
    if txn.passesOver writer stamp then detectAfter txn additive older
    else do
      let other ← View.resolve writer
      match txn.rivalry other with
      | .none => detectAfter txn additive older
      | .additive => detectAfter txn (additive <|> some writer) older
      | .conflict => pure (.writeConflict, some writer)

/-- The verdict on a write of `txn` after the writes in a history, and the writer it is due to. -/
def detectConflict (txn : View) (history : WriteHistory) : TxnM σ (Verdict × Option TxnId) :=
  detectAfter txn none history

end

end Mvcc
