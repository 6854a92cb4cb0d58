import Mvcc.Cell.Version
import Mvcc.Txn.Ancestry

/-!
# Resolving cells

A cell whose writer has finished is stamped with the outcome, so that later readers skip the
look-up. A failed resolution is left to the next reader.
-/

namespace Mvcc

inductive Resolution where
  | stamped (outcome : Stamp)
  | active
  | failed
  deriving DecidableEq, Repr

def Resolution.isStamped : Resolution → Bool
  | .stamped _ => true
  | _ => false

structure ResolutionStatus where
  committed : Nat
  rolledBack : Nat
  active : Nat
  /-- Events refused by the queue. -/
  dropped : Nat
  deriving DecidableEq, Repr, Inhabited

namespace ResolutionStatus

def zero : ResolutionStatus := ⟨0, 0, 0, 0⟩

def add (status : ResolutionStatus) : Resolution → ResolutionStatus
  | .stamped (.committed _) => { status with committed := status.committed + 1 }
  | .stamped .rolledBack => { status with rolledBack := status.rolledBack + 1 }
  | .active => { status with active := status.active + 1 }
  | .failed => status

def drop (status : ResolutionStatus) : ResolutionStatus :=
  { status with dropped := status.dropped + 1 }

def applied (status : ResolutionStatus) : Nat := status.committed + status.rolledBack

end ResolutionStatus

/-- A state that holds a partition of cells. -/
class CellHolder (σ : Type) where
  region : σ → Partition
  withRegion : Partition → σ → σ

/-- A partition, and the supplier in which the writers of its cells are looked up. -/
structure Site (σ : Type) where
  region : Partition
  supplier : σ

namespace Site

variable {σ : Type}

instance : CellHolder (Site σ) := ⟨region, fun region s => { s with region := region }⟩

instance [Supplier σ] : Supplier (Site σ) where
  lookup id := TxnM.within (·.supplier) (fun s supplier => { s with supplier := supplier })
    (Supplier.lookup id)

end Site

namespace CellHolder

variable {σ : Type} [CellHolder σ]

def alter (change : Partition → Except StorageError Partition) : TxnM σ Unit := fun s =>
  match change (region s) with
  | .ok region => .ok () (withRegion region s)
  | .error e => .error (.ofStorage e) s

/-- Stamp the version that `writer` wrote, if it has finished. -/
def resolve [Supplier σ] (row : Bytes) (writer : TxnId) (s : σ) : Resolution × σ :=
  match View.resolve writer s with
  | .error _ s => (.failed, s)
  | .ok found s =>
    match found.outcome with
    | none => (.active, s)
    | some stamp =>
      match alter (·.stampVersion row writer stamp) s with
      | .error _ s => (.failed, s)
      | .ok _ s => (.stamped stamp, s)

end CellHolder

end Mvcc
