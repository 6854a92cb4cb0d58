import Mvcc.Cell.Tables
import Mvcc.Snapshot.Queue

/-!
# Workers

A worker dequeues one event at a time, resolves the cell and counts the result.
-/

namespace Mvcc

structure Workshop (σ : Type) where
  tables : Tables
  supplier : σ
  /-- The table name of the supplier's own partition, if it has one. -/
  ownTable : Option String
  status : ResolutionStatus
  /-- The stamped cells whose events asked for a report, oldest first. -/
  reported : List (Bytes × TxnId)

namespace Workshop

variable {σ : Type} [CellHolder σ] [Supplier σ]

def stamp (shop : Workshop σ) (table : String) (row : Bytes) (writer : TxnId) :
    Resolution × Workshop σ :=
  if shop.ownTable = some table then
    let (resolution, supplier) := CellHolder.resolve row writer shop.supplier
    (resolution, { shop with supplier := supplier })
  else
    let site : Site σ := ⟨shop.tables.region table, shop.supplier⟩
    let (resolution, site) := CellHolder.resolve row writer site
    (resolution, { shop with
      tables := shop.tables.put table site.region
      supplier := site.supplier })

def resolve (shop : Workshop σ) (table : String) (row : Bytes) (writer : TxnId) :
    Resolution × Workshop σ :=
  let (resolution, shop) := shop.stamp table row writer
  (resolution, { shop with status := shop.status.add resolution })

def handle (shop : Workshop σ) (event : ResolveEvent) : Workshop σ :=
  let (resolution, shop) := shop.resolve event.table event.row event.writer
  if event.reported && resolution.isStamped then
    { shop with reported := shop.reported ++ [(event.row, event.writer)] }
  else shop

/-- Deal with everything in the queue, if workers take it. -/
def drain (shop : Workshop σ) (queue : ResolveQueue) : Workshop σ × ResolveQueue :=
  if queue.running then
    (queue.waiting.foldl handle shop, { queue with waiting := [] })
  else (shop, queue)

end Workshop

end Mvcc
