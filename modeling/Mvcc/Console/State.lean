import Mvcc.Batch.RowLocks
import Mvcc.Service.Environment

/-!
# Consoles

A console drives a running service one command at a time. It keeps named views and schema filters
and the watches it was given, and advances the timer. Look-ups can be redirected from the ledger to
fixed records.
-/

namespace Mvcc

/-- Where a console looks transactions up: in fixed records if there are some, in the ledger
otherwise. -/
structure Directory where
  ledger : Ledger Oracle
  fixed : Option FixedRecords

namespace Directory

def find (id : TxnId) : TxnM Directory (Option Txn) := fun s =>
  match s.fixed with
  | some records => .ok (records.find? id) s
  | none => TxnM.within (·.ledger) (fun s ledger => { s with ledger := ledger })
      (Ledger.find id) s

instance : Supplier Directory := ⟨find⟩

def recalling (d : Directory) (memory : ExpiringCache TxnId Txn) : Directory :=
  { d with ledger := d.ledger.recalling memory }

instance : CellHolder Directory where
  region s := s.ledger.partition
  withRegion region s := { s with ledger := { s.ledger with partition := region } }

end Directory

structure Console where
  env : Environment
  fixed : Option FixedRecords
  /-- The in-memory mark, kept beside a mark in a file. -/
  spare : MemoryMark
  /-- The table name of the ledger's own partition, if it has one. -/
  ledgerTable : Option String
  views : SortedMap String View
  filters : SortedMap String DdlFilter
  /-- The latest watch of each transaction. -/
  watches : SortedMap TxnId Nat
  /-- The workers' cache, where the ledger was restarted after them. -/
  workersMemory : Option (ExpiringCache TxnId Txn)
  /-- The reported stamps, oldest first. -/
  reported : List (Bytes × TxnId)
  /-- Totals of manual resolution, where the service counts its own. -/
  byHand : Option ResolutionStatus
  /-- Counters of replaced services. -/
  retired : Counters

namespace Console

def on (env : Environment) : Console where
  env := env
  fixed := none
  spare := .startingAt 0
  ledgerTable := none
  views := .empty
  filters := .empty
  watches := .empty
  workersMemory := none
  reported := []
  byHand := some .zero
  retired := .zero

def onParts (env : Environment) (ledgerTable : String) (fixed : Option FixedRecords) : Console :=
  { on env with fixed := fixed, ledgerTable := some ledgerTable, byHand := none }

def onEnv {α : Type} (steps : TxnM Environment α) : TxnM Console α :=
  TxnM.within (·.env) (fun c env => { c with env := env }) steps

def onLedger {α : Type} (steps : TxnM (Ledger Oracle) α) : TxnM Console α :=
  onEnv (Environment.onLedger steps)

def onTended {α : Type} (steps : TxnM (TendedLedger Oracle) α) : TxnM Console α :=
  onEnv (Environment.onTended steps)

def directory (c : Console) : Directory := ⟨c.env.ledger, c.fixed⟩

def withDirectory (c : Console) (d : Directory) : Console :=
  { c with env := { c.env with ledger := d.ledger } }

def asking {α : Type} (steps : TxnM Directory α) : TxnM Console α :=
  TxnM.within directory withDirectory steps

def view (id : TxnId) : TxnM Console View := asking (View.resolve id)

def saveView (name : String) (view : View) : TxnM Console Unit :=
  modify fun c => { c with views := c.views.insert name view }

def oracle (c : Console) : Oracle := c.env.ledger.source

def withOracle (c : Console) (oracle : Oracle) : Console :=
  { c with env := { c.env with ledger := { c.env.ledger with source := oracle } } }

/-- Draw a timestamp without beginning a transaction. -/
def draw (c : Console) : Except TimestampError Timestamp × Console :=
  match Oracle.next c.oracle with
  | .ok time oracle => (.ok time, c.withOracle oracle)
  | .error e oracle => (.error e, c.withOracle oracle)

def memory (c : Console) : MemoryMark := c.oracle.mark.memoryOr c.spare

def alterMemory (change : MemoryMark → MemoryMark) (c : Console) : Console :=
  let (mark, spare) := c.oracle.mark.alterMemory change c.spare
  { c.withOracle { c.oracle with mark := mark } with spare := spare }

def region (c : Console) (table : String) : Partition :=
  if c.ledgerTable = some table then c.env.ledger.partition else c.env.tables.region table

def putRegion (c : Console) (table : String) (region : Partition) : Console :=
  if c.ledgerTable = some table then
    { c with env := { c.env with ledger := { c.env.ledger with partition := region } } }
  else { c with env := { c.env with tables := c.env.tables.put table region } }

def alter (table : String) (write : Partition → Except StorageError Partition) (c : Console) :
    Except StorageError (Partition × Console) :=
  (write (c.region table)).map fun region => (region, c.putRegion table region)

def overwriteMark (raw : Bytes) : TxnM Console Unit := fun c =>
  match c.oracle.mark.overwrite raw with
  | .ok mark => .ok () (c.withOracle { c.oracle with mark := mark })
  | .error fault => .error (.timestamp (.io fault)) c

def alterLedger (change : Ledger Oracle → Ledger Oracle) (c : Console) : Console :=
  { c with env := { c.env with ledger := change c.env.ledger } }

def alterBeats (change : Heartbeats → Heartbeats) (c : Console) : Console :=
  { c with env := { c.env with beats := change c.env.beats } }

/-- Restart the ledger over the same records. Workers keep their caches. -/
def restartLedger (c : Console) : Console :=
  let memory := c.workersMemory <|> c.env.queue.map fun _ => c.env.ledger.completed
  { c.alterLedger Ledger.restarted with workersMemory := memory }

def replaceQueue (queue : ResolveQueue) (c : Console) : Console :=
  { c with env := { c.env with queue := some queue }, workersMemory := none }

def alterQueue (change : ResolveQueue → ResolveQueue) (c : Console) : Console :=
  { c with env := { c.env with queue := c.env.queue.map change } }

def counters (c : Console) : Counters :=
  (c.retired.add c.env.counters).add
    { Counters.zero with resolutionsApplied := (c.byHand.map (·.applied)).getD 0 }

def schedule (id : TxnId) (c : Console) : Console :=
  let (watch, beats) := c.env.beats.schedule id
  { c with
    env := { c.env with beats := beats }
    watches := c.watches.insert id watch }

def begin (parent : Option TxnId) (isolation : Option Isolation) (additive : Option Bool) :
    TxnM Console Txn := do
  let (txn, watch) ← onEnv (Environment.begin parent isolation additive)
  modify fun c => { c with watches := c.watches.insert txn.id watch }
  pure txn

def watched (c : Console) (id : TxnId) : Option (Option CancelSignal) :=
  (c.watches.get? id).map c.env.beats.watched

def readSignals (c : Console) : SignalLog × Console :=
  let (log, beats) := c.env.beats.readSignals
  (log, c.alterBeats fun _ => beats)

def reports (c : Console) : List (Bytes × TxnId) :=
  c.reported.mergeSort fun a b => a.1 < b.1 || (a.1 = b.1 && a.2 ≤ b.2)

def shutdownBeats (c : Console) : Console :=
  { c with env := { c.env with toTendedLedger := c.env.toTendedLedger.shutdown } }

def shutdown (c : Console) : Console := { c with env := c.env.shutdown }

def workshop (c : Console) (directory : Directory) : Workshop Directory :=
  { c.env.workshop directory with ownTable := c.ledgerTable }

def workersDirectory (c : Console) : Directory :=
  c.workersMemory.elim c.directory c.directory.recalling

def withWorkersDirectory (c : Console) (d : Directory) : Console :=
  match c.workersMemory with
  | none => c.withDirectory d
  | some _ =>
    { c.withDirectory (d.recalling c.env.ledger.completed) with
      workersMemory := some d.ledger.completed }

def settle (c : Console) : Console :=
  match c.env.queue with
  | none => c
  | some queue =>
    let (shop, queue) := Workshop.drain (c.workshop c.workersDirectory) queue
    let c := { c with
      env := { c.env.afterWork shop with queue := some queue }
      reported := c.reported ++ shop.reported }
    c.withWorkersDirectory shop.supplier

/-- Stop all heartbeats without rolling their transactions back. -/
def dropBeats (c : Console) : Console := c.settle.alterBeats Heartbeats.stopped

/-- Let the timer advance. Pending work is done first. -/
def sleep (milliseconds : Nat) (c : Console) : Console :=
  let c := c.settle
  { c with env := { c.env with toTendedLedger := c.env.toTendedLedger.elapse milliseconds } }

def setClock (now : UInt64) (c : Console) : Console :=
  c.alterLedger fun ledger => { ledger with now := now }

/-- Repeatedly advance the wall clock and the timer. -/
def run (milliseconds : UInt64) : Nat → Console → Console
  | 0, c => c
  | times + 1, c =>
    run milliseconds times
      ((c.setClock (c.env.ledger.now + milliseconds)).sleep milliseconds.toNat)

/-- Stop the service and start one on the same mark and tables. If that fails the console keeps the
stopped service. -/
def restart (settings : ServiceSettings) (c : Console) : Except StartFault Console × Console :=
  let stopped := c.shutdown
  match stopped.env.restart settings with
  | .error fault => (.error fault, stopped)
  | .ok env => (.ok { stopped with
      env := env, workersMemory := none
      retired := stopped.retired.add stopped.env.counters }, stopped)

end Console

end Mvcc
