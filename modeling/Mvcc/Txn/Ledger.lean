import Mvcc.Clock.Oracle
import Mvcc.Data.ExpiringCache
import Mvcc.Txn.Ancestry
import Mvcc.Txn.Settings

/-!
# The ledger of transactions

The ledger creates, reads and finishes transaction records in its own partition, one slot at a time.
A transaction without a recent keep-alive counts as rolled back; operations that would change it
store that, reads do not. Finished transactions are cached.
-/

namespace Mvcc

structure LedgerTally where
  created : Nat
  committed : Nat
  rolledBack : Nat
  timeouts : Nat
  cacheHits : Nat
  deriving DecidableEq, Repr, Inhabited

structure Ledger (τ : Type) where
  partition : Partition
  /-- Remaining writes to the partition, where limited. -/
  quota : Option Nat
  source : τ
  /-- The wall clock in milliseconds. -/
  now : UInt64
  settings : TxnSettings
  completed : ExpiringCache TxnId Txn
  tally : LedgerTally

namespace Ledger

variable {τ : Type}

def emptyCompleted (settings : TxnSettings) : ExpiringCache TxnId Txn :=
  .new settings.completedCapacity.toNat settings.completedLifetime

def new (name : String) (source : τ) (now : UInt64) (settings : TxnSettings) : Ledger τ where
  partition := .new name
  quota := none
  source := source
  now := now
  settings := settings
  completed := emptyCompleted settings
  tally := ⟨0, 0, 0, 0, 0⟩

def recalling (s : Ledger τ) (memory : ExpiringCache TxnId Txn) : Ledger τ :=
  { s with completed := memory }

/-- The ledger as it starts again over the same records, with nothing remembered. -/
def restarted (s : Ledger τ) : Ledger τ := s.recalling (emptyCompleted s.settings)

def count (change : LedgerTally → LedgerTally) : TxnM (Ledger τ) Unit :=
  modify fun s => { s with tally := change s.tally }

def putSlot (id : TxnId) (slot value : Bytes) : TxnM (Ledger τ) Unit := fun s =>
  if s.quota = some 0 then .error (.storage (.other "put refused")) s
  else
    let s := { s with quota := s.quota.map (· - 1) }
    match s.partition.put (Slot.rowKey id) slot value with
    | .ok p => .ok () { s with partition := p }
    | .error e => .error (.ofStorage e) s

def draw [TimestampSource τ] : TxnM (Ledger τ) Timestamp := fun s =>
  match TimestampSource.draw s.source with
  | .ok time source => .ok time { s with source := source }
  | .error e source => .error (.timestamp e) { s with source := source }

/-- The stored record, as it was written. -/
def load (id : TxnId) : TxnM (Ledger τ) (Option Txn) := do
  let columns ← TxnM.ofExcept .ofStorage ((← get).partition.getRow (Slot.rowKey id))
  if columns.isEmpty then pure none
  else some <$> TxnM.ofExcept .ofSlot (Slot.decode id columns.entries)

def loadExisting (id : TxnId) : TxnM (Ledger τ) Txn := do
  let some txn ← load id | throw (.notFound id)
  pure txn

/-- Whether a last heartbeat at `keepAlive` is too long ago. -/
def isSilent (s : Ledger τ) (keepAlive : UInt64) : Bool :=
  Word.addCapped s.settings.timeout s.settings.timeoutSlack < Word.subFloored s.now keepAlive

def currentState (s : Ledger τ) (state : TxnState) (keepAlive : UInt64) : TxnState :=
  if state = .active ∧ s.isSilent keepAlive then .rolledBack else state

/-- The record once silence is counted as a rollback. -/
def current (s : Ledger τ) (txn : Txn) : Txn :=
  { txn with state := s.currentState txn.state txn.keepAlive }

/-- Write down that a silent transaction rolled back. That the write fails does not matter, since
the transaction counts as rolled back anyway. -/
def writeTimeout (id : TxnId) : TxnM (Ledger τ) Unit := do
  count fun t => { t with timeouts := t.timeouts + 1 }
  tryCatch (putSlot id Slot.state (Slot.encodeState .rolledBack)) fun _ => pure ()

def recollect (id : TxnId) : TxnM (Ledger τ) (Option Txn) := fun s =>
  let (txn, completed) := s.completed.get id
  .ok txn { s with completed := completed }

def remember (txn : Txn) : TxnM (Ledger τ) Unit :=
  modify fun s => { s with completed := s.completed.insert txn.id txn }

/-- Forget a finished transaction, since its record changed. -/
def forget (id : TxnId) : TxnM (Ledger τ) Unit :=
  modify fun s => { s with completed := s.completed.remove id }

/-- Find a transaction as it counts now. -/
def find (id : TxnId) : TxnM (Ledger τ) (Option Txn) := do
  match ← recollect id with
  | some txn =>
    count fun t => { t with cacheHits := t.cacheHits + 1 }
    pure (some txn)
  | none =>
    let some txn ← load id | pure none
    let txn := (← get).current txn
    if txn.state.isFinal then remember txn
    pure (some txn)

instance : Supplier (Ledger τ) := ⟨find⟩

/-- The view of a parent under which something is to begin; it must not have rolled back. -/
def checkParent (parent : TxnId) : TxnM (Ledger τ) View := do
  let view ← View.resolve parent
  if view.effectiveState = .rolledBack then throw (.wrongState parent .rolledBack)
  pure view

def create [TimestampSource τ] (parent : Option TxnId) (isolation : Option Isolation)
    (additive : Option Bool) : TxnM (Ledger τ) Txn := do
  let _ ← parent.mapM checkParent
  let time ← draw
  let txn := { Txn.new time time (← get).now with
    parent := parent, isolation := isolation, additive := additive }
  putSlot time Slot.core (Slot.encodeCore txn)
  putSlot time Slot.keepAlive (BigEndian.ofWord txn.keepAlive)
  putSlot time Slot.state (Slot.encodeState .active)
  count fun t => { t with created := t.created + 1 }
  pure txn

/-- Begin a read-only transaction. Nothing is written. -/
def beginReadOnly [TimestampSource τ] (parent : Option TxnId) (isolation : Option Isolation) :
    TxnM (Ledger τ) View := do
  let above ← parent.mapM checkParent
  let time ← draw
  let txn := { Txn.new time time (← get).now with parent := parent, isolation := isolation }
  pure ⟨txn, (above.map View.chain).getD [], true⟩

/-- Check that a transaction may commit, or give the time at which it did. -/
def checkCommit (id : TxnId) : TxnM (Ledger τ) (Option Timestamp) := do
  let txn ← loadExisting id
  match txn.state with
  | .committed =>
    match txn.commitTime <|> txn.globalCommitTime with
    | some time => pure (some time)
    | none => throw (.malformed (.commitTimeMissing id))
  | .rolledBack => throw (.wrongState id .rolledBack)
  | .active =>
    if (← get).isSilent txn.keepAlive then
      writeTimeout id
      throw (.timeout id)
    match txn.parent with
    | none => pure none
    | some parent =>
      let view ← View.resolve parent
      if view.effectiveState = .rolledBack then throw (.wrongState id .rolledBack)
      pure none

/-- Store the commit time of a transaction, from which on it is committed. -/
def writeCommitTime (id : TxnId) (time : Timestamp) : TxnM (Ledger τ) Unit :=
  putSlot id Slot.commit (BigEndian.ofWord time)

def writeCommitted (id : TxnId) : TxnM (Ledger τ) Unit :=
  putSlot id Slot.state (Slot.encodeState .committed)

/-- Commit and give the commit timestamp. Committing again gives the same one. -/
def commit [TimestampSource τ] (id : TxnId) : TxnM (Ledger τ) Timestamp := do
  match ← checkCommit id with
  | some time => pure time
  | none =>
    let time ← draw
    writeCommitTime id time
    writeCommitted id
    count fun t => { t with committed := t.committed + 1 }
    forget id
    pure time

/-- Roll back. Rolling back again does nothing; what committed cannot be rolled back. -/
def rollback (id : TxnId) : TxnM (Ledger τ) Unit := do
  let txn ← loadExisting id
  match txn.state with
  | .rolledBack => pure ()
  | .committed => throw (.wrongState id .committed)
  | .active =>
    putSlot id Slot.state (Slot.encodeState .rolledBack)
    count fun t => { t with rolledBack := t.rolledBack + 1 }

/-- Store a keep-alive timestamp. The answer is whether the transaction is active. -/
def keepAlive (id : TxnId) : TxnM (Ledger τ) Bool := do
  let txn ← loadExisting id
  if txn.state ≠ .active then pure false
  else if (← get).isSilent txn.keepAlive then
    writeTimeout id
    pure false
  else
    putSlot id Slot.keepAlive (BigEndian.ofWord (max (← get).now txn.keepAlive))
    pure true

def recordDestination (id : TxnId) (table : String) : TxnM (Ledger τ) Unit := do
  let txn ← loadExisting id
  let state := (← get).currentState txn.state txn.keepAlive
  if state ≠ .active then throw (.wrongState id state)
  if txn.destinations.contains table then pure ()
  else
    let slot ← TxnM.ofExcept .ofSlot (Slot.encodeDestinations (txn.destinations.add table))
    putSlot id Slot.destinations slot

/-- Record a commit that was coordinated elsewhere. This alone commits the transaction. -/
def recordGlobalCommit (id : TxnId) (time : Timestamp) : TxnM (Ledger τ) Unit := do
  let txn ← loadExisting id
  if txn.state = .rolledBack then throw (.wrongState id .rolledBack)
  putSlot id Slot.globalCommit (BigEndian.ofWord time)
  forget id

structure Listing where
  least : Timestamp
  greatest : Timestamp
  table : Option String

def Listing.admits (listing : Listing) (txn : Txn) : Bool :=
  listing.least ≤ txn.beginTime && txn.beginTime ≤ listing.greatest &&
    listing.table.all txn.destinations.contains

/-- The transaction in a stored row, if it is active and the listing asks for it. -/
def activeIn (s : Ledger τ) (listing : Listing) (row : Bytes × Columns) :
    Except SlotFault (Option TxnId) := do
  let id ← Slot.ofRowKey row.1
  let txn ← Slot.decode id row.2.entries
  let active := s.currentState txn.state txn.keepAlive = .active
  pure (if active ∧ listing.admits txn then some id else none)

/-- The active transactions that a listing asks for, by ascending id. -/
def listActive (listing : Listing) : TxnM (Ledger τ) (List TxnId) := do
  let s ← get
  let rows ← TxnM.ofExcept .ofStorage (s.partition.scan [])
  let found ← TxnM.ofExcept .ofSlot (rows.mapM (s.activeIn listing))
  pure (found.filterMap id)

end Ledger

end Mvcc
