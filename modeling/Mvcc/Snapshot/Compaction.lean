import Mvcc.Snapshot.Resolution

/-!
# Compaction

Compacting a row removes the versions of writers that rolled back and stamps those of writers that
committed.
-/

namespace Mvcc

inductive CompactionAction where
  | keep
  | settle (stamp : Stamp)
  | purge
  deriving DecidableEq, Repr

structure CompactionSummary where
  kept : Nat
  stamped : Nat
  purged : Nat
  deriving DecidableEq, Repr, Inhabited

namespace CompactionSummary

def zero : CompactionSummary := ⟨0, 0, 0⟩

def add (summary : CompactionSummary) : CompactionAction → CompactionSummary
  | .keep => { summary with kept := summary.kept + 1 }
  | .settle _ => { summary with stamped := summary.stamped + 1 }
  | .purge => { summary with purged := summary.purged + 1 }

end CompactionSummary

/-- What to do with an unstamped version of a writer. -/
def CompactionAction.ofOutcome : Option Stamp → CompactionAction
  | some .rolledBack => .purge
  | some stamp => .settle stamp
  | none => .keep

section

variable {σ : Type} [Supplier σ]

/-- What to do with a version. Only an unstamped one needs its writer looked up. -/
def classify (writer : TxnId) : Option Stamp → TxnM σ CompactionAction
  | some .rolledBack => pure .purge
  | some (.committed _) => pure .keep
  | none => do pure (.ofOutcome (← View.resolve writer).outcome)

end

namespace CellHolder

variable {σ : Type} [CellHolder σ] [Supplier σ]

def apply (row : Bytes) (writer : TxnId) : CompactionAction → TxnM σ Unit
  | .keep => pure ()
  | .settle stamp => alter (·.stampVersion row writer stamp)
  | .purge => alter (·.purgeVersion row writer)

def compactVersion (row : Bytes) (version : Version) : TxnM σ CompactionAction := do
  let action ← classify version.writer version.stamp
  apply row version.writer action
  pure action

def compactVersions (row : Bytes) : List Version → CompactionSummary → TxnM σ CompactionSummary
  | [], summary => pure summary
  | version :: older, summary => do
    let action ← compactVersion row version
    compactVersions row older (summary.add action)

def compactRow (row : Bytes) : TxnM σ CompactionSummary := do
  let versions ← TxnM.ofExcept .ofStorage ((region (← get)).versions row)
  compactVersions row versions .zero

end CellHolder

end Mvcc
