import Mvcc.Txn.Ledger

/-!
# Commits in steps

The calls of a commit, interleaved with other transactions. Two commits of one transaction exclude
each other.
-/

namespace Mvcc

inductive CommitStage where
  | begun
  /-- The checks have passed. -/
  | checked
  | drawn (time : Timestamp)
  /-- The commit timestamp is stored, the state is not. -/
  | dated (time : Timestamp)
  | ended (result : Except TxnError Timestamp)

namespace CommitStage

/-- Where a call leads that was made for its answer. A call that fails ends the commit. -/
def onceAnswered {σ α : Type} (next : α → CommitStage) :
    EStateM.Result TxnError σ α → CommitStage × σ
  | .ok answer s => (next answer, s)
  | .error e s => (.ended (.error e), s)

/-- A check may find that the transaction committed long ago. -/
def ofCheck : Option Timestamp → CommitStage
  | some time => .ended (.ok time)
  | none => .checked

end CommitStage

namespace Ledger

variable {τ : Type}

def concludeCommit (id : TxnId) : TxnM (Ledger τ) Unit := do
  writeCommitted id
  count fun t => { t with committed := t.committed + 1 }
  forget id

def proceed [TimestampSource τ] (id : TxnId) (stage : CommitStage) (s : Ledger τ) :
    CommitStage × Ledger τ :=
  match stage with
  | .begun => CommitStage.onceAnswered .ofCheck (checkCommit id s)
  | .checked => CommitStage.onceAnswered .drawn (draw s)
  | .drawn time => CommitStage.onceAnswered (fun _ => .dated time) (writeCommitTime id time s)
  | .dated time => CommitStage.onceAnswered (fun _ => .ended (.ok time)) (concludeCommit id s)
  | .ended result => (.ended result, s)

end Ledger

end Mvcc
