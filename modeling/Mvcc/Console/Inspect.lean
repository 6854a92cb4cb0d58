import Mvcc.Console.State

/-!
# Inspecting rows

Commands that read, resolve, check and compact the rows of a table.
-/

namespace Mvcc.Console

/-- Read a row. With `queued` the finished writers are offered to the queue. -/
def read (reader : View) (table : String) (row : Bytes) (queued : Bool) :
    TxnM Console (Option Bytes) := fun c =>
  let (trace, d) := readRow (c.region table) reader row c.directory
  let c := c.withDirectory d
  let c :=
    if queued then { c with env := c.env.offerAll table row true trace.finished } else c
  match trace.answer with
  | .ok value => .ok value c
  | .error e => .error e c

def resolve (table : String) (row : Bytes) (writer : TxnId) (c : Console) :
    Resolution × Console :=
  let shop := { c.workshop c.directory with status := c.byHand.getD c.env.status }
  let (resolution, shop) := shop.resolve table row writer
  let env := c.env.afterWork shop
  let c := match c.byHand with
    | none => { c with env := env }
    | some _ => { c with env := { env with status := c.env.status }, byHand := some shop.status }
  (resolution, c.withDirectory shop.supplier)

def offer (event : ResolveEvent) : Nat → Console → Nat × Console
  | 0, c => (0, c)
  | times + 1, c =>
    let (taken, env) := c.env.offer event
    let (count, c) := offer event times { c with env := env }
    (count + (if taken then 1 else 0), c)

def compact (table : String) (row : Bytes) : TxnM Console CompactionSummary := do
  if (← get).ledgerTable = some table then asking (CellHolder.compactRow row)
  else
    TxnM.within (fun c => (⟨c.region table, c.directory⟩ : Site Directory))
      (fun c site => (c.putRegion table site.region).withDirectory site.supplier)
      (CellHolder.compactRow row)

def history (c : Console) (table : String) (given : Option WriteHistory) (row : Bytes) :
    Except StorageError WriteHistory :=
  match given with
  | some history => .ok history
  | none => (c.region table).history row

def detect (txn : View) (table : String) (given : Option WriteHistory) (row : Bytes) :
    TxnM Console (Verdict × Option TxnId) := do
  let history ← TxnM.ofExcept .ofStorage ((← get).history table given row)
  asking (detectConflict txn history)

def check (txn : View) (table : String) (given : Option WriteHistory)
    (constraints : List Constraint) (batch : List Mutation) : TxnM Console BatchOutcome :=
  fun c =>
    let rules : BatchRules := ⟨constraints, c.history table given⟩
    let (trace, d) := checkBatch rules txn batch c.directory
    let c := c.withDirectory d
    let c := { c with env := { c.env with conflicts := c.env.conflicts + trace.conflicts } }
    match trace.outcome txn.id with
    | .ok outcome => .ok outcome c
    | .error e => .error e c

end Mvcc.Console
