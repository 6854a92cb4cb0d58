import Mvcc.Batch.Check
import Mvcc.Service.Counters
import Mvcc.Service.Settings
import Mvcc.Snapshot.Compaction
import Mvcc.Snapshot.Read
import Mvcc.Snapshot.Worker
import Mvcc.Txn.Heartbeat

/-!
# The environment

The ledger and its heartbeats, the tables, and the queue of cells to resolve. A write checks a batch
and applies it under the locks of its rows; a read enqueues finished writers.
-/

namespace Mvcc

structure Environment extends TendedLedger Oracle where
  tables : Tables
  queue : Option ResolveQueue
  status : ResolutionStatus
  conflicts : Nat

inductive StartFault where
  | settings (fault : ServiceFault)
  | oracle (error : TimestampError)
  deriving DecidableEq, Repr

def StartFault.message : StartFault → String
  | .settings fault => fault.message
  | .oracle _ => "open timestamp oracle"

namespace Environment

def ledgerName : String := "stratum_txn"

/-- All parts around an oracle; nothing was written and nothing runs. -/
def around (oracle : Oracle) (name : String) (now : UInt64) (settings : TxnSettings) :
    Environment where
  ledger := .new name oracle now settings
  beats := .new settings.keepAliveInterval
  tables := .empty
  queue := none
  status := .zero
  conflicts := 0

def start (settings : ServiceSettings) (mark : Mark) (now : UInt64) :
    Except StartFault Environment := do
  settings.validate.mapError .settings
  let oracle ← (Oracle.start mark settings.oracle.blockSize).mapError .oracle
  let queue := ResolveQueue.new settings.resolver.threads.toNat settings.resolver.queueSize.toNat
  pure { around oracle ledgerName now settings.txn with queue := some queue.start }

def counters (env : Environment) : Counters where
  timestampsIssued := env.ledger.source.issued
  timestampReservations := env.ledger.source.reservations
  txnsCreated := env.ledger.tally.created
  txnsCommitted := env.ledger.tally.committed
  txnsRolledBack := env.ledger.tally.rolledBack
  txnTimeouts := env.ledger.tally.timeouts
  txnCacheHits := env.ledger.tally.cacheHits
  keepAliveFailures := env.beats.failures
  resolutionsApplied := env.status.applied
  resolutionsDropped := env.status.dropped
  writeConflicts := env.conflicts

def onLedger {α : Type} (steps : TxnM (Ledger Oracle) α) : TxnM Environment α :=
  TxnM.within (·.ledger) (fun env ledger => { env with ledger := ledger }) steps

def onTended {α : Type} (steps : TxnM (TendedLedger Oracle) α) : TxnM Environment α :=
  TxnM.within (·.toTendedLedger)
    (fun env tended => { env with toTendedLedger := tended }) steps

/-- Begin a transaction and keep it alive. The second result is a watch on it. -/
def begin (parent : Option TxnId) (isolation : Option Isolation) (additive : Option Bool) :
    TxnM Environment (Txn × Nat) := do
  let txn ← onLedger (Ledger.create parent isolation additive)
  let (watch, beats) := (← get).beats.schedule txn.id
  modify fun env => { env with beats := beats }
  pure (txn, watch)

def finish (id : TxnId) : TxnM Environment Unit :=
  modify fun env => { env with beats := env.beats.finish id }

/-- Commit a transaction. Its heartbeat stops whether or not that succeeds. -/
def commit (id : TxnId) : TxnM Environment Timestamp := do
  try
    let time ← onLedger (Ledger.commit id)
    finish id
    pure time
  catch e =>
    finish id
    throw e

def rollback (id : TxnId) : TxnM Environment Unit := do
  finish id
  onLedger (Ledger.rollback id)

def view (id : TxnId) : TxnM Environment View := onLedger (View.resolve id)

def alter (table : String) (change : Partition → Except StorageError Partition) :
    TxnM Environment Unit := fun env =>
  match change (env.tables.region table) with
  | .ok region => .ok () { env with tables := env.tables.put table region }
  | .error e => .error (.ofStorage e) env

def check (txn : View) (table : String) (constraints : List Constraint) (batch : List Mutation) :
    TxnM Environment BatchOutcome := fun env =>
  let rules : BatchRules := ⟨constraints, (env.tables.region table).history⟩
  let (trace, ledger) := checkBatch rules txn batch env.ledger
  let env := { env with ledger := ledger, conflicts := env.conflicts + trace.conflicts }
  match trace.outcome txn.id with
  | .ok outcome => .ok outcome env
  | .error e => .error e env

def applyBatch (id : TxnId) (table : String) : List Mutation → TxnM Environment Unit
  | [] => pure ()
  | m :: rest => do
    alter table (·.writeVersion m.row id m.written)
    applyBatch id table rest

/-- Check a batch and, when every mutation may proceed, apply it and note where it went. -/
def write (id : TxnId) (table : String) (constraints : List Constraint)
    (batch : List Mutation) : TxnM Environment BatchOutcome := do
  let txn ← view id
  let outcome ← check txn table constraints batch
  if outcome.isSuccess then
    applyBatch id table batch
    onLedger (Ledger.recordDestination id table)
  pure outcome

/-- Offer a cell to the queue. A refused one is counted; without a queue nothing happens. -/
def offer (env : Environment) (event : ResolveEvent) : Bool × Environment :=
  match env.queue with
  | none => (false, env)
  | some queue =>
    match queue.offer event with
    | (true, queue) => (true, { env with queue := some queue })
    | (false, queue) => (false, { env with queue := some queue, status := env.status.drop })

def offerAll (env : Environment) (table : String) (row : Bytes) (reported : Bool)
    (writers : List TxnId) : Environment :=
  writers.foldl (fun env writer => (env.offer ⟨table, row, writer, reported⟩).2) env

def read (reader : View) (table : String) (row : Bytes) : TxnM Environment (Option Bytes) :=
  fun env =>
    let (trace, ledger) := readRow (env.tables.region table) reader row env.ledger
    let env := { env with ledger := ledger }.offerAll table row false trace.finished
    match trace.answer with
    | .ok value => .ok value env
    | .error e => .error e env

/-- What workers work on when they look writers up in `supplier`. -/
def workshop {σ : Type} (env : Environment) (supplier : σ) : Workshop σ :=
  ⟨env.tables, supplier, none, env.status, []⟩

def afterWork {σ : Type} (env : Environment) (shop : Workshop σ) : Environment :=
  { env with tables := shop.tables, status := shop.status }

instance : CellHolder (Ledger Oracle) :=
  ⟨(·.partition), fun region ledger => { ledger with partition := region }⟩

def settle (env : Environment) : Environment :=
  match env.queue with
  | none => env
  | some queue =>
    let (shop, queue) := Workshop.drain (env.workshop env.ledger) queue
    { env.afterWork shop with ledger := shop.supplier, queue := some queue }

def compact (table : String) (row : Bytes) : TxnM Environment CompactionSummary :=
  TxnM.within (fun env => (⟨env.tables.region table, env.ledger⟩ : Site (Ledger Oracle)))
    (fun env site => { env with
      tables := env.tables.put table site.region
      ledger := site.supplier })
    (CellHolder.compactRow row)

/-- Stop the queue and roll back every transaction that is still kept alive. -/
def shutdown (env : Environment) : Environment :=
  { env with
    queue := env.queue.map ResolveQueue.shutdown
    toTendedLedger := env.toTendedLedger.shutdown }

/-- A new environment on the mark and the tables of one that was shut down. Watches given out
before can still be read. -/
def restart (env : Environment) (settings : ServiceSettings) : Except StartFault Environment := do
  let next ← start settings env.ledger.source.mark env.ledger.now
  pure { next with
    tables := env.tables
    beats := { next.beats with
      watches := env.beats.watches
      announced := env.beats.announced } }

end Environment

end Mvcc
