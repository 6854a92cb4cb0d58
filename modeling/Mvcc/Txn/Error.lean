import Mvcc.Cell.Partition
import Mvcc.Clock.Error
import Mvcc.Txn.Slots

/-!
# Failures of transactions

Each failure is named by its cause; `TxnError.message` gives the wording.
-/

namespace Mvcc

inductive SettingsFault where
  | zeroInterval
  | intervalNotBelowTimeout (interval timeout : UInt64)
  | zeroCompletedCache
  deriving DecidableEq, Repr

def SettingsFault.message : SettingsFault → String
  | .zeroInterval => "keep_alive_interval_ms must be positive"
  | .intervalNotBelowTimeout interval timeout =>
    s!"keep_alive_interval_ms ({interval}) must be below timeout_ms ({timeout})"
  | .zeroCompletedCache => "completed_cache_size must be positive"

inductive Malformation where
  /-- A slot cannot be read or written. -/
  | slot (fault : SlotFault)
  /-- A committed record without a commit timestamp. -/
  | commitTimeMissing (id : TxnId)
  /-- The parents form a cycle. -/
  | cycle (through : TxnId)
  /-- The chain of parents is longer than the limit. -/
  | tooDeep (id : TxnId)
  /-- A cell that does not decode. -/
  | cell (detail : String)
  deriving DecidableEq, Repr

/-- The longest chain of a transaction and its ancestors. -/
def longestChain : Nat := 64

def Malformation.message : Malformation → String
  | .slot fault => fault.message
  | .commitTimeMissing id => s!"committed transaction {id} has no commit timestamp"
  | .cycle through => s!"ancestry cycle through {through}"
  | .tooDeep id => s!"ancestry of {id} deeper than {longestChain}"
  | .cell detail => detail

inductive TxnError where
  /-- Another transaction holds a conflicting write of the same row. -/
  | writeConflict (txn other : TxnId)
  /-- Two additive transactions wrote the same row. -/
  | additiveWriteConflict (txn other : TxnId)
  | wrongState (txn : TxnId) (state : TxnState)
  | constraintViolation (txn : TxnId) (constraint : String)
  | timeout (txn : TxnId)
  | readOnly (txn : TxnId)
  | malformed (fault : Malformation)
  | notFound (txn : TxnId)
  | timestamp (error : TimestampError)
  | storage (error : StorageError)
  | settings (fault : SettingsFault)
  deriving DecidableEq, Repr

namespace TxnError

def message : TxnError → String
  | .writeConflict txn other => s!"write conflict between {txn} and {other}"
  | .additiveWriteConflict txn other => s!"additive write conflict between {txn} and {other}"
  | .wrongState txn state => s!"transaction {txn} cannot proceed from state {state.name}"
  | .constraintViolation txn constraint => s!"transaction {txn} violated constraint {constraint}"
  | .timeout txn => s!"transaction {txn} timed out"
  | .readOnly txn => s!"transaction {txn} is read only"
  | .malformed fault => "malformed transaction data: " ++ fault.message
  | .notFound txn => s!"transaction {txn} not found"
  | .timestamp error => error.message
  | .storage error => "storage error: " ++ error.message
  | .settings fault => "invalid configuration: " ++ fault.message

/-- The name of the kind of failure, with its source for a failure of a lower layer. -/
def kind : TxnError → String
  | .writeConflict .. => "WriteConflict"
  | .additiveWriteConflict .. => "AdditiveWriteConflict"
  | .wrongState .. => "CannotCommit"
  | .constraintViolation .. => "ConstraintViolation"
  | .timeout _ => "TransactionTimeout"
  | .readOnly _ => "ReadOnlyModification"
  | .malformed _ => "Format"
  | .notFound _ => "NotFound"
  | .timestamp error => "Timestamp." ++ error.kind
  | .storage error => "Storage." ++ error.kind
  | .settings _ => "Config"

/-- Whether the whole transaction may succeed when it is tried again. -/
def isRetryable : TxnError → Bool
  | .writeConflict .. => true
  | _ => false

/-- The failure of a transaction whose storage failed: unreadable cells count as bad data. -/
def ofStorage : StorageError → TxnError
  | .corrupt detail => .malformed (.cell detail)
  | error => .storage error

def ofSlot (fault : SlotFault) : TxnError := .malformed (.slot fault)

end TxnError

/-- Stateful steps that may fail; effects before a failure persist. -/
abbrev TxnM (σ : Type) := EStateM TxnError σ

namespace TxnM

def ofExcept {σ ε α : Type} (wrap : ε → TxnError) : Except ε α → TxnM σ α
  | .ok value => pure value
  | .error e => throw (wrap e)

def within {σ τ α : Type} (part : σ → τ) (replace : σ → τ → σ) (steps : TxnM τ α) :
    TxnM σ α := fun s =>
  match steps (part s) with
  | .ok value t => .ok value (replace s t)
  | .error e t => .error e (replace s t)

end TxnM

end Mvcc
