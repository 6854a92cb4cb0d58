import Mvcc.Cell.Stamp
import Mvcc.Txn.Error

/-!
# Views

A view is a transaction together with its ancestors up to the root. Its effective state and
timestamps are determined by the whole chain: it is committed once every ancestor is, at the commit
timestamp of the root.
-/

namespace Mvcc

inductive Rivalry where
  /-- No conflict. -/
  | none
  /-- Both writers are additive. -/
  | additive
  | conflict
  deriving DecidableEq, Repr

def Rivalry.name : Rivalry → String
  | .none => "None"
  | .additive => "Additive"
  | .conflict => "Conflict"

/-- A transaction and its ancestors, parent first. -/
structure View where
  record : Txn
  ancestors : List Txn
  /-- Whether the transaction refuses to write. -/
  readOnly : Bool
  deriving DecidableEq

namespace View

def id (v : View) : TxnId := v.record.id

def beginTime (v : View) : Timestamp := v.record.beginTime

/-- The recorded state, regardless of the ancestors. -/
def state (v : View) : TxnState := v.record.state

/-- The transaction and its ancestors up to the root. -/
def chain (v : View) : List Txn := v.record :: v.ancestors

/-- The effective state of a transaction below the given ancestors. -/
def stateBelow (txn : Txn) : List Txn → TxnState
  | [] => txn.state
  | parent :: above =>
    if txn.state = .rolledBack then .rolledBack
    else match stateBelow parent above with
      | .rolledBack => .rolledBack
      | .active => .active
      | .committed => txn.state

/-- Rolled back if anything in the chain is, committed if everything is, active otherwise. -/
def effectiveState (v : View) : TxnState := stateBelow v.record v.ancestors

/-- The first coordinated commit up the chain, or else the commit of the root. -/
def commitTimeBelow (txn : Txn) : List Txn → Option Timestamp
  | [] => txn.globalCommitTime <|> txn.commitTime
  | parent :: above => txn.globalCommitTime <|> commitTimeBelow parent above

def effectiveCommitTime (v : View) : Option Timestamp :=
  if v.effectiveState = .committed then commitTimeBelow v.record v.ancestors else none

def effectiveBeginTime (v : View) : Timestamp :=
  (v.ancestors.getLast?.getD v.record).beginTime

def parent? (v : View) : Option View :=
  match v.ancestors with
  | [] => none
  | parent :: above => some ⟨parent, above, false⟩

def descendsFrom (v : View) (other : TxnId) : Bool := v.ancestors.any (·.id = other)

/-- Refuse to write unless the transaction is active and may write. -/
def ensureWritable (v : View) : Except TxnError Unit :=
  if v.readOnly then .error (.readOnly v.id)
  else if v.effectiveState = .active then .ok ()
  else .error (.wrongState v.id v.effectiveState)

/-- Whether every link from the writer up to just below the transaction `top` committed. -/
def committedBelow (writer : View) (top : TxnId) : Bool :=
  (writer.chain.takeWhile (·.id ≠ top)).all (·.state = .committed)

/-- Whether the writer is effectively committed no later than `time`. -/
def committedBy (writer : View) (time : Timestamp) : Bool :=
  writer.effectiveCommitTime.any (· ≤ time)

/-- Whether `reader` sees the work of `writer`: its own and that of its ancestors; that of
descendants whose links up to the reader committed; that of others by its isolation level. -/
def canSee (reader writer : View) : Bool :=
  if writer.id = reader.id || reader.descendsFrom writer.id then true
  else if writer.descendsFrom reader.id then writer.committedBelow reader.id
  else match reader.record.isolationLevel with
    | .readUncommitted => writer.effectiveState ≠ .rolledBack
    | .readCommitted => writer.effectiveState = .committed
    | .snapshot => writer.committedBy reader.beginTime

/-- The rivalry of `other` with a write of the same row by `v`. Kin never conflict, nor does a
writer that rolled back or committed before `v` began. -/
def rivalry (v other : View) : Rivalry :=
  if other.id = v.id || v.descendsFrom other.id || other.descendsFrom v.id then .none
  else if other.effectiveState = .rolledBack then .none
  else if other.committedBy v.beginTime then .none
  else if v.record.isAdditive && other.record.isAdditive then .additive
  else .conflict

/-- The stamp of a finished writer. -/
def outcome (writer : View) : Option Stamp :=
  match writer.effectiveState with
  | .committed => writer.effectiveCommitTime.map .committed
  | .rolledBack => some .rolledBack
  | .active => none

end View

end Mvcc
