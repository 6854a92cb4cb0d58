import Mvcc.Cell.Tables
import Mvcc.Snapshot.Read
import Mvcc.Txn.CommitStage

/-!
# Commits in flight

Root transactions begin, write, read and commit on one ledger. A commit proceeds call by call,
interleaved with all other events.
-/

namespace Mvcc

/-- A ledger and its tables, with the commits that were asked for. -/
structure Traffic where
  ledger : Ledger Oracle
  tables : Tables
  /-- The stage of each commit that has begun. -/
  commits : TxnId → Option CommitStage

namespace Traffic

inductive Event where
  | begin (isolation : Option Isolation) (additive : Option Bool)
  /-- A transaction writes a version; refused once its commit has begun. -/
  | write (writer : TxnId) (table : String) (row : Bytes) (value : Option Bytes)
  /-- A commit begins, unless another one of the transaction is in progress. -/
  | commit (id : TxnId)
  /-- The commit of a transaction takes its next step. -/
  | proceed (id : TxnId)
  | read (reader : View) (table : String) (row : Bytes)

def idle (name : String) (oracle : Oracle) (now : UInt64) (settings : TxnSettings) : Traffic where
  ledger := .new name oracle now settings
  tables := .empty
  commits := fun _ => none

def atStage (t : Traffic) (id : TxnId) (stage : CommitStage) : Traffic :=
  { t with commits := fun other => if other = id then some stage else t.commits other }

/-- What a reader finds in a row, and the ledger in which it has looked the writers up. -/
def readRow (t : Traffic) (reader : View) (table : String) (row : Bytes) :
    ReadTrace × Ledger Oracle :=
  Mvcc.readRow (t.tables.region table) reader row t.ledger

def answer (t : Traffic) (reader : View) (table : String) (row : Bytes) :
    Except TxnError (Option Bytes) :=
  (t.readRow reader table row).1.answer

def step (t : Traffic) : Event → Traffic
  | .begin isolation additive =>
    match Ledger.create none isolation additive t.ledger with
    | .ok _ s | .error _ s => { t with ledger := s }
  | .write writer table row value =>
    match t.commits writer, Ledger.load writer t.ledger,
        (t.tables.region table).writeVersion row writer value with
    | none, .ok (some _) _, .ok region => { t with tables := t.tables.put table region }
    | _, _, _ => t
  | .commit id =>
    match t.commits id with
    | none | some (.ended _) => t.atStage id .begun
    | some _ => t
  | .proceed id =>
    match t.commits id with
    | some stage =>
      let (stage', s) := t.ledger.proceed id stage
      { t with ledger := s }.atStage id stage'
    | none => t
  | .read reader table row => { t with ledger := (t.readRow reader table row).2 }

def run (t : Traffic) (events : List Event) : Traffic := events.foldl step t

end Traffic

end Mvcc
