import Mvcc.Clock.Timestamp
import Mvcc.Data.SortedMap

/-!
# Transaction records
-/

namespace Mvcc

/-- The state of a transaction. Only an active transaction changes. -/
inductive TxnState where
  | active
  | committed
  | rolledBack
  deriving DecidableEq, Repr, Inhabited

namespace TxnState

def all : List TxnState := [.active, .committed, .rolledBack]

def isFinal (state : TxnState) : Bool := state ≠ .active

def name : TxnState → String
  | .active => "Active"
  | .committed => "Committed"
  | .rolledBack => "RolledBack"

def code : TxnState → UInt8
  | .active => 1
  | .committed => 2
  | .rolledBack => 3

def ofCode? (byte : UInt8) : Option TxnState :=
  all.find? (·.code = byte)

@[simp] theorem ofCode?_code (state : TxnState) : ofCode? state.code = some state := by
  cases state <;> rfl

end TxnState

inductive Isolation where
  /-- Everything not rolled back. -/
  | readUncommitted
  /-- Everything effectively committed. -/
  | readCommitted
  /-- Everything committed when the reader began. -/
  | snapshot
  deriving DecidableEq, Repr, Inhabited

namespace Isolation

def all : List Isolation := [.readUncommitted, .readCommitted, .snapshot]

def name : Isolation → String
  | .readUncommitted => "ReadUncommitted"
  | .readCommitted => "ReadCommitted"
  | .snapshot => "SnapshotIsolation"

def code : Isolation → UInt8
  | .readUncommitted => 1
  | .readCommitted => 2
  | .snapshot => 3

def ofCode? (byte : UInt8) : Option Isolation :=
  all.find? (·.code = byte)

end Isolation

structure Txn where
  id : TxnId
  beginTime : Timestamp
  parent : Option TxnId
  /-- Additive writers do not conflict with each other. -/
  additive : Option Bool
  isolation : Option Isolation
  commitTime : Option Timestamp
  /-- The timestamp of a coordinated commit. -/
  globalCommitTime : Option Timestamp
  state : TxnState
  /-- Time of the last heartbeat, in milliseconds. -/
  keepAlive : UInt64
  /-- Tables written to. -/
  destinations : SortedSet String
  deriving DecidableEq

namespace Txn

def new (id : TxnId) (beginTime : Timestamp) (keepAlive : UInt64) : Txn where
  id := id
  beginTime := beginTime
  parent := none
  additive := none
  isolation := none
  commitTime := none
  globalCommitTime := none
  state := .active
  keepAlive := keepAlive
  destinations := .empty

/-- Whether writes are additive; they are not unless that was asked for. -/
def isAdditive (txn : Txn) : Bool := txn.additive.getD false

/-- The isolation level, a snapshot unless another was asked for. -/
def isolationLevel (txn : Txn) : Isolation := txn.isolation.getD .snapshot

end Txn

end Mvcc
