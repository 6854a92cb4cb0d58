import Mvcc.Txn.Scheduler

/-!
# A scheduler between the steps of its calls

A shutdown empties the map of entries first. Then, entry by entry, it stops the task and waits for
the rollback of the transaction. A cancellation waits for its rollback too. A task reads its stop
flag before it calls `keepAlive`. Other calls and tasks may run at each of these points.
-/

namespace Mvcc

structure StagedScheduler (τ : Type) where
  scheduler : Scheduler τ
  /-- Entries that a shutdown took out of the map and has not stopped yet. -/
  drained : List Tracked
  /-- Transactions that a cancellation or a shutdown has yet to roll back. -/
  owed : List TxnId
  /-- Tasks that have read their stop flag unset and not called `keepAlive` yet. -/
  cleared : List Nat
  /-- Attempts by tasks without an entry. -/
  late : List Attempt

namespace StagedScheduler

variable {τ : Type}

def new (ledger : Ledger τ) : StagedScheduler τ := ⟨.new ledger, [], [], [], []⟩

/-- The first step of a cancellation. -/
def announce (s : StagedScheduler τ) (id : TxnId) (reason : String) : StagedScheduler τ :=
  { s with scheduler := s.scheduler.announce ⟨id, reason⟩, owed := s.owed ++ [id] }

/-- The first step of a shutdown: it empties the map of entries. -/
def drain (s : StagedScheduler τ) (order : List Tracked) : StagedScheduler τ :=
  { s with scheduler := { s.scheduler with entries := [] }, drained := s.drained ++ order }

def stop (s : StagedScheduler τ) (entry : Tracked) : StagedScheduler τ :=
  if entry ∈ s.drained then
    { s with
      scheduler := s.scheduler.halt entry.task
      drained := s.drained.erase entry
      owed := s.owed ++ [entry.txn] }
  else s

def rollBack (s : StagedScheduler τ) (id : TxnId) : StagedScheduler τ :=
  if id ∈ s.owed then
    { s with scheduler := s.scheduler.rollBack id, owed := s.owed.erase id }
  else s

/-- A due task reads its stop flag, and ends if that is set. -/
def clear (s : StagedScheduler τ) (number : Nat) : StagedScheduler τ :=
  match s.scheduler.tasks number with
  | some ⟨_, some due, halted, none⟩ =>
    if s.scheduler.timer < due ∨ number ∈ s.cleared then s
    else if halted then { s with scheduler := s.scheduler.put number none }
    else { s with cleared := number :: s.cleared }
  | _ => s

/-- A task that has read its stop flag calls `keepAlive`, even if the flag was set since. -/
def ask (s : StagedScheduler τ) (number : Nat) : StagedScheduler τ :=
  if number ∈ s.cleared then
    let cleared := s.cleared.filter (· ≠ number)
    match s.scheduler.tasks number with
    | some ⟨id, due, halted, none⟩ =>
      let (answer, ledger) := Scheduler.attempt s.scheduler.ledger id
      let asked := (s.scheduler.within ledger).put number (some ⟨id, due, halted, some answer⟩)
      let attempt : Attempt := ⟨number, id, s.scheduler.timer⟩
      if s.scheduler.entries.any (·.task = number) then
        { s with
          scheduler := { asked with attempts := s.scheduler.attempts ++ [attempt] }
          cleared := cleared }
      else { s with scheduler := asked, cleared := cleared, late := s.late ++ [attempt] }
    | _ => { s with cleared := cleared }
  else s

end StagedScheduler

end Mvcc
