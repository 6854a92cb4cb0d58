import Mvcc.Txn.Heartbeat

/-!
# The scheduler of heartbeats

Each tracked transaction has an entry and a background task that keeps it alive. Removing an entry
sets the stop flag of its task. The task may still be about to act on an answer, and by then another
entry, with another task, may exist for the same transaction. Calls and attempts are atomic here;
acting on the answer of an attempt is a separate step.
-/

namespace Mvcc

structure Tracked where
  txn : TxnId
  /-- The number shared by the heartbeat task and its watch. -/
  task : Nat
  deriving DecidableEq

structure BeatTask where
  txn : TxnId
  /-- The next firing; none for a zero interval. -/
  due : Option Nat
  /-- The stop flag. -/
  halted : Bool
  /-- The answer of its last attempt, until acted on. -/
  answer : Option (Except TxnError Bool)

def BeatTask.stopped (task : BeatTask) : BeatTask := { task with halted := true }

structure Attempt where
  task : Nat
  txn : TxnId
  time : Nat
  deriving DecidableEq

structure Scheduler (τ : Type) where
  ledger : Ledger τ
  /-- The heartbeat interval in milliseconds. -/
  interval : Nat
  timer : Nat
  entries : List Tracked
  tasks : Nat → Option BeatTask
  spawned : Nat
  attempts : List Attempt
  /-- The states sent to the watches. -/
  announced : List (Nat × CancelSignal)
  signals : SignalLog
  failures : Nat

namespace Scheduler

variable {τ : Type}

def new (ledger : Ledger τ) : Scheduler τ where
  ledger := ledger
  interval := ledger.settings.keepAliveInterval.toNat
  timer := 0
  entries := []
  tasks := fun _ => none
  spawned := 0
  attempts := []
  announced := []
  signals := .empty
  failures := 0

def find? (s : Scheduler τ) (id : TxnId) : Option Tracked := s.entries.find? (·.txn = id)

def isTracked (s : Scheduler τ) (id : TxnId) : Bool := (s.find? id).isSome

/-- The due time of a task that fired or was spawned at `time`. -/
def dueAfter (s : Scheduler τ) (time : Nat) : Option Nat :=
  if s.interval = 0 then none else some (time + s.interval)

def put (s : Scheduler τ) (number : Nat) (task : Option BeatTask) : Scheduler τ :=
  { s with tasks := fun other => if other = number then task else s.tasks other }

def within (s : Scheduler τ) (ledger : Ledger τ) : Scheduler τ := { s with ledger := ledger }

/-- Make an entry and spawn its task. A transaction that has an entry keeps it. -/
def schedule (s : Scheduler τ) (id : TxnId) : Nat × Scheduler τ :=
  match s.find? id with
  | some entry => (entry.task, s)
  | none =>
    (s.spawned, { s.put s.spawned (some ⟨id, s.dueAfter s.timer, false, none⟩) with
      entries := s.entries ++ [⟨id, s.spawned⟩]
      spawned := s.spawned + 1 })

def halt (s : Scheduler τ) (number : Nat) : Scheduler τ :=
  s.put number ((s.tasks number).map BeatTask.stopped)

def without (s : Scheduler τ) (id : TxnId) : Scheduler τ :=
  { s with entries := s.entries.filter (·.txn ≠ id) }

def finish (s : Scheduler τ) (id : TxnId) : Scheduler τ :=
  match s.find? id with
  | some entry => (s.without id).halt entry.task
  | none => s

def announce (s : Scheduler τ) (signal : CancelSignal) : Scheduler τ :=
  let announced := match s.find? signal.txn with
    | some entry => s.announced ++ [(entry.task, signal)]
    | none => s.announced
  { s.finish signal.txn with announced := announced, signals := s.signals.add signal }

/-- Roll a transaction back as far as that succeeds. -/
def rollBack (s : Scheduler τ) (id : TxnId) : Scheduler τ :=
  match Ledger.rollback id s.ledger with
  | .ok _ ledger => s.within ledger
  | .error _ ledger => s.within ledger

def cancel (s : Scheduler τ) (id : TxnId) (reason : String) : Scheduler τ :=
  (s.announce ⟨id, reason⟩).rollBack id

/-- Remove all entries, and in this order stop their tasks and roll the transactions back. -/
def shutdown (s : Scheduler τ) (order : List Tracked) : Scheduler τ :=
  order.foldl (fun s entry => (s.halt entry.task).rollBack entry.txn) { s with entries := [] }

/-- Remove the entry of a transaction only if it is that of this task. -/
def untrack (s : Scheduler τ) (id : TxnId) (number : Nat) : Scheduler τ :=
  match s.find? id with
  | some entry => if entry.task = number then s.without id else s
  | none => s

def attempt (ledger : Ledger τ) (id : TxnId) : Except TxnError Bool × Ledger τ :=
  match Ledger.keepAlive id ledger with
  | .ok alive ledger => (.ok alive, ledger)
  | .error e ledger => (.error e, ledger)

/-- A task fires when it is due, or ends if it was stopped. -/
def ask (s : Scheduler τ) (number : Nat) : Scheduler τ :=
  match s.tasks number with
  | some ⟨id, some due, halted, none⟩ =>
    if s.timer < due then s
    else if halted then s.put number none
    else
      let (answer, ledger) := attempt s.ledger id
      { (s.within ledger).put number (some ⟨id, some due, false, some answer⟩) with
        attempts := s.attempts ++ [⟨number, id, s.timer⟩] }
  | _ => s

/-- A task processes its answer: it ends if the transaction has, and otherwise waits for its next
beat. -/
def conclude (s : Scheduler τ) (number : Nat) : Scheduler τ :=
  match s.tasks number with
  | some ⟨id, due, halted, some answer⟩ =>
    let next : BeatTask := ⟨id, due.map (· + s.interval), halted, none⟩
    match answer with
    | .ok true => s.put number (some next)
    | .ok false => (s.untrack id number).put number none
    | .error _ => { s.put number (some next) with failures := s.failures + 1 }
  | _ => s

def reap (s : Scheduler τ) (number : Nat) : Scheduler τ :=
  match s.tasks number with
  | some task => if task.halted then s.put number none else s
  | none => s

/-- Whether no task has to fire or to process an answer before time advances. -/
def isIdle (s : Scheduler τ) : Bool :=
  (List.range s.spawned).all fun number =>
    (s.tasks number).all fun task => task.halted || task.due ≠ some s.timer

def tick (s : Scheduler τ) : Scheduler τ :=
  if s.isIdle then { s with timer := s.timer + 1 } else s

end Scheduler

end Mvcc
